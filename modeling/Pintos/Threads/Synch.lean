import Mathlib.Tactic

/-!
# Semaphores and locks

The data of `threads/synch.c` and what each atomic section does to it. The body of `sema_down`,
`sema_try_down` and `sema_up` runs with interrupts off, so a pass through the loop of `sema_down` is
one step: the value is taken, or the thread joins the waiters and sleeps. Which threads run, sleep
and wake up is left to the systems that are built on these steps: `down` says whether the thread
goes on, and `up` names the thread that is unblocked.
-/

set_option autoImplicit false

namespace Pintos.Threads.Synch

variable {τ : Type}

/-- `struct semaphore`. The value is an `unsigned`. -/
structure Semaphore (τ : Type) where
  value : Nat
  waiters : List τ

/-- `struct lock`. -/
structure Lock (τ : Type) where
  holder : Option τ
  semaphore : Semaphore τ

/-- `sema_init`. -/
def semaInit (value : Nat) : Semaphore τ := ⟨value, []⟩

/-- `lock_init`. -/
def lockInit : Lock τ := ⟨none, semaInit 1⟩

namespace Semaphore

/-- A pass through the loop of `sema_down` by the thread `t`: whether the value was taken; otherwise
the thread has joined the waiters. -/
def down (s : Semaphore τ) (t : τ) : Bool × Semaphore τ :=
  if s.value = 0 then (false, { s with waiters := s.waiters ++ [t] })
  else (true, { s with value := s.value - 1 })

/-- `sema_try_down`. -/
def tryDown (s : Semaphore τ) : Bool × Semaphore τ :=
  if 0 < s.value then (true, { s with value := s.value - 1 }) else (false, s)

/-- `sema_up`: the thread to unblock, if any, and the semaphore. -/
def up (s : Semaphore τ) : Option τ × Semaphore τ :=
  (s.waiters.head?, ⟨(s.value + 1) % 2 ^ 32, s.waiters.tail⟩)

end Semaphore

end Pintos.Threads.Synch
