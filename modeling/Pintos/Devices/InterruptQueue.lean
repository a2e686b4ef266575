import Pintos.Lib.StateExcept
import Pintos.Lib.RingBuffer
import Pintos.Threads.Synch

/-!
# Interrupt queues

The functions of `devices/intq.c`. They run with interrupts off, so what a thread does between two
points where it sleeps is one step. A thread that finds its condition false sleeps at one of two
points: in `sema_down` of `lock_acquire`, or in `thread_block` of `wait`. The loop of `intq_getc`
and `intq_putc` is therefore given in three pieces: from its test on (`await`), from the test of the
semaphore on (`semaDown`), and from the return of `thread_block` on (`afterWait`). Each piece says
how far the thread came (`Progress`).
-/

set_option autoImplicit false

namespace Pintos.Devices.InterruptQueue

open Function Lib.StateExcept Lib.RingBuffer Threads.Synch

/-- `INTQ_BUFSIZE`. -/
def intqBufsize : Nat := 64

/-- `struct intq`. -/
structure Intq (τ : Type) where
  lock : Lock τ
  notFull : Option τ
  notEmpty : Option τ
  ring : Buffer UInt8

/-- The two members of `struct intq` that name a waiting thread. -/
inductive Waiter where
  | notFull
  | notEmpty
  deriving DecidableEq

/-- Assertions of `intq.c`, `synch.c` and `thread.c`. -/
inductive Failure where
  /-- In `wait`: the awaited condition is still false. -/
  | waitCondition
  /-- In `signal`: the condition is true. -/
  | signalCondition
  /-- In `lock_acquire`. -/
  | acquireHeld
  /-- In `lock_release`. -/
  | releaseNotHeld
  /-- In `thread_unblock`. -/
  | unblockStatus
  deriving DecidableEq

/-- A queue, and the status of the threads: which of them are `THREAD_BLOCKED`. -/
structure QueueState (τ : Type) where
  q : Intq τ
  blocked : τ → Bool

/-- How far a thread came: the condition it wants is true, or it sleeps in `lock_acquire` or in
`wait`. -/
inductive Progress where
  | ready
  | inAcquire
  | inWait

variable {τ : Type} [DecidableEq τ]

/-- Code on one queue. -/
abbrev QueueM (τ α : Type) : Type := Comp (QueueState τ) Failure α

namespace Intq

/-- `intq_init`. The bytes of the buffer are those that were there. -/
def init (buf : Nat → UInt8) : Intq τ := ⟨lockInit, none, none, ⟨buf, 0, 0⟩⟩

/-- `intq_empty`. -/
def empty (q : Intq τ) : Bool := q.ring.empty

/-- `intq_full`. -/
def full (q : Intq τ) : Bool := q.ring.full intqBufsize

/-- The condition that goes with a waiter. -/
def holds (q : Intq τ) : Waiter → Bool
  | .notFull => !q.full
  | .notEmpty => !q.empty

def waiter (q : Intq τ) : Waiter → Option τ
  | .notFull => q.notFull
  | .notEmpty => q.notEmpty

def setWaiter (q : Intq τ) (w : Waiter) (t : Option τ) : Intq τ :=
  match w with
  | .notFull => { q with notFull := t }
  | .notEmpty => { q with notEmpty := t }

end Intq

/-- `thread_block`, up to the call of `schedule`. -/
def threadBlock (t : τ) : QueueM τ Unit :=
  modify fun k => { k with blocked := update k.blocked t true }

/-- `thread_unblock`. -/
def threadUnblock (t : τ) : QueueM τ Unit := do
  let k ← get
  check (k.blocked t = true) .unblockStatus
  modify fun k => { k with blocked := update k.blocked t false }

/-- `wait`, up to the call of `schedule` in `thread_block`. -/
def wait (t : τ) (w : Waiter) : QueueM τ Unit := do
  let k ← get
  check (k.q.holds w = false) .waitCondition
  modify fun k => { k with q := k.q.setWaiter w (some t) }
  threadBlock t

/-- `signal`. -/
def signal (w : Waiter) : QueueM τ Unit := do
  let k ← get
  check (k.q.holds w = true) .signalCondition
  match k.q.waiter w with
  | some t =>
    threadUnblock t
    modify fun k => { k with q := k.q.setWaiter w none }
  | none => pure ()

/-- The loop of `intq_getc` and `intq_putc` from the loop of `sema_down` in `lock_acquire` on. -/
def semaDown (t : τ) (w : Waiter) : QueueM τ Progress := do
  let k ← get
  match k.q.lock.semaphore.down t with
  | (true, sema) =>
    modify fun k => { k with q := { k.q with lock := ⟨some t, sema⟩ } }
    wait t w
    return .inWait
  | (false, sema) =>
    modify fun k => { k with q := { k.q with lock := { k.q.lock with semaphore := sema } } }
    threadBlock t
    return .inAcquire

/-- The loop of `intq_getc` and `intq_putc` from its test on. -/
def await (t : τ) (w : Waiter) : QueueM τ Progress := do
  let k ← get
  if k.q.holds w then return .ready
  check (k.q.lock.holder ≠ some t) .acquireHeld
  semaDown t w

/-- `lock_release`. -/
def lockRelease (t : τ) : QueueM τ Unit := do
  let k ← get
  check (k.q.lock.holder = some t) .releaseNotHeld
  let (woken, sema) := k.q.lock.semaphore.up
  match woken with
  | some u => threadUnblock u
  | none => pure ()
  modify fun k => { k with q := { k.q with lock := ⟨none, sema⟩ } }

/-- The loop of `intq_getc` and `intq_putc` from the return of `wait` on. -/
def afterWait (t : τ) (w : Waiter) : QueueM τ Progress := do
  lockRelease t
  await t w

/-- `intq_getc` after its loop. -/
def takeByte : QueueM τ UInt8 := do
  let k ← get
  modify fun k => { k with q := { k.q with ring := k.q.ring.drop intqBufsize } }
  signal .notFull
  return k.q.ring.front

/-- `intq_putc` after its loop. -/
def addByte (byte : UInt8) : QueueM τ Unit := do
  modify fun k => { k with q := { k.q with ring := k.q.ring.put intqBufsize byte } }
  signal .notEmpty

/-! ## Where the threads are

Between two steps a thread is outside the functions of the queue, asleep or woken up in
`lock_acquire`, or asleep or woken up in `wait`. The thread in `wait` holds the lock.
-/

/-- Where a thread is. -/
inductive Place where
  | out
  | acquire (w : Waiter)
  | wait (w : Waiter)
  deriving DecidableEq

/-- The place that a thread has come to. -/
def Progress.place (w : Waiter) : Progress → Place
  | .ready => .out
  | .inAcquire => .acquire w
  | .inWait => .wait w

/-- The lock, the registered threads and the status of the threads agree with their places. -/
structure Coherent (place : τ → Place) (k : QueueState τ) : Prop where
  /-- The value is that of a free lock exactly when no thread is in `wait`. -/
  free : k.q.lock.semaphore.value = if k.q.lock.holder = none then 1 else 0
  /-- The thread in `wait` holds the lock. -/
  holder : ∀ t, k.q.lock.holder = some t ↔ ∃ w, place t = .wait w
  nodup : k.q.lock.semaphore.waiters.Nodup
  waiters : ∀ t, t ∈ k.q.lock.semaphore.waiters ↔ (∃ w, place t = .acquire w) ∧ k.blocked t = true
  registered : ∀ w t, k.q.waiter w = some t ↔ place t = .wait w ∧ k.blocked t = true

variable {place : τ → Place} {k k' : QueueState τ} {t : τ} {w : Waiter}

section Waiter

omit [DecidableEq τ]

@[simp] theorem setWaiter_ring (q : Intq τ) (x : Option τ) : (q.setWaiter w x).ring = q.ring := by
  cases w <;> rfl

@[simp] theorem setWaiter_lock (q : Intq τ) (x : Option τ) : (q.setWaiter w x).lock = q.lock := by
  cases w <;> rfl

theorem waiter_setWaiter (q : Intq τ) (x : Option τ) (w' : Waiter) :
    (q.setWaiter w x).waiter w' = if w' = w then x else q.waiter w' := by
  cases w <;> cases w' <;> rfl

/-- The lock has no part in the conditions. -/
@[simp] theorem holds_setLock (q : Intq τ) (l : Lock τ) :
    ({ q with lock := l } : Intq τ).holds w = q.holds w := by
  cases w <;> rfl

@[simp] theorem waiter_setLock (q : Intq τ) (l : Lock τ) :
    ({ q with lock := l } : Intq τ).waiter w = q.waiter w := by
  cases w <;> rfl

end Waiter

section

variable (h : Coherent place k)
include h

omit [DecidableEq τ] in
/-- Only the holder of the lock is in `wait`. -/
theorem Coherent.ne_wait (ht : k.q.lock.holder ≠ some t) : place t ≠ .wait w :=
  fun hw => ht ((h.holder t).2 ⟨w, hw⟩)

omit [DecidableEq τ] in
/-- Only the holder is registered, and only while it sleeps. -/
theorem Coherent.waiter_ne (ht : k.q.lock.holder = some t → k.blocked t = false) :
    k.q.waiter w ≠ some t := by
  intro hreg
  obtain ⟨hw, hb⟩ := (h.registered w t).1 hreg
  rw [ht ((h.holder t).2 ⟨w, hw⟩)] at hb
  cases hb

/-- Waking up the thread that waits for a condition. -/
theorem ends_signal (hw : k.q.holds w = true) :
    ends (signal w) k (fun _ k' => Coherent place k' ∧ k'.q.ring = k.q.ring) fun _ => False := by
  simp only [signal, ends_bind, ends_get, ends_check]
  refine ⟨fun _ => ?_, fun hn => hn hw⟩
  cases hreg : k.q.waiter w with
  | none => exact ⟨h, rfl⟩
  | some t =>
    obtain ⟨hplace, hblocked⟩ := (h.registered w t).1 hreg
    simp only [threadUnblock, ends_bind, ends_get, ends_check, ends_modify]
    refine ⟨fun _ => ⟨⟨?_, ?_, ?_, ?_, ?_⟩, ?_⟩, fun hn => hn hblocked⟩
    · simpa using h.free
    · simpa using h.holder
    · simpa using h.nodup
    · intro u
      dsimp only
      rw [setWaiter_lock, h.waiters]
      by_cases hu : u = t
      · subst hu
        simp [hplace]
      · rw [update_of_ne hu]
    · intro w' u
      dsimp only
      rw [waiter_setWaiter]
      by_cases hu : u = t
      · subst hu
        by_cases hw' : w' = w
        · rw [if_pos hw']
          simp
        · rw [if_neg hw', h.registered, hplace]
          simp [Ne.symm hw']
      · rw [update_of_ne hu, ← h.registered]
        by_cases hw' : w' = w
        · rw [if_pos hw', hw', hreg]
          simp [Ne.symm hu]
        · rw [if_neg hw']
    · exact setWaiter_ring _ _

/-- The lock is released by the thread that returns from `wait`, and one of those that sleep in
`lock_acquire` wakes up. -/
theorem ends_lockRelease (hplace : place t = .wait w) (hblocked : k.blocked t = false) :
    ends (lockRelease t) k (fun _ k' => Coherent (update place t .out) k' ∧
      k'.q.ring = k.q.ring ∧ k'.blocked t = false) fun _ => False := by
  have hholder : k.q.lock.holder = some t := (h.holder t).2 ⟨w, hplace⟩
  have hvalue : k.q.lock.semaphore.value = 0 := by
    rw [h.free, hholder]
    rfl
  have hregistered : ∀ w' u, k.q.waiter w' ≠ some u := by
    refine fun w' u => h.waiter_ne fun hu => ?_
    rw [hholder, Option.some.injEq] at hu
    exact hu ▸ hblocked
  have hout : ∀ u w', update place t .out u ≠ .wait w' := by
    intro u w'
    by_cases hu : u = t
    · rw [hu, update_self]
      exact Place.noConfusion
    · rw [update_of_ne hu]
      refine h.ne_wait fun hu' => hu ?_
      rw [hholder, Option.some.injEq] at hu'
      exact hu'.symm
  simp only [lockRelease, ends_bind, ends_get, ends_check, Semaphore.up]
  refine ⟨fun _ => ?_, fun hn => hn hholder⟩
  cases hws : k.q.lock.semaphore.waiters with
  | nil =>
    simp only [List.head?_nil, List.tail_nil, ends_modify, hvalue]
    refine ⟨⟨rfl, ?_, List.nodup_nil, ?_, ?_⟩, trivial, hblocked⟩
    · simp [hout]
    · intro u
      have hu := h.waiters u
      rw [hws] at hu
      by_cases hut : u = t
      · simp [hut]
      · rw [update_of_ne hut]
        exact hu
    · intro w' u
      simp only [hout, false_and, iff_false]
      exact hregistered w' u
  | cons v ws =>
    have hnodup := h.nodup
    rw [hws, List.nodup_cons] at hnodup
    obtain ⟨⟨wv, hv⟩, hbv⟩ := (h.waiters v).1 (by rw [hws]; exact List.mem_cons_self)
    have hvt : v ≠ t := by
      intro e
      rw [e, hplace] at hv
      cases hv
    simp only [List.head?_cons, List.tail_cons, threadUnblock, ends_bind, ends_get, ends_check,
      ends_modify, hvalue]
    refine ⟨fun _ => ⟨⟨rfl, ?_, hnodup.2, ?_, ?_⟩, trivial, ?_⟩, fun hn => hn hbv⟩
    · simp [hout]
    · intro u
      have hu := h.waiters u
      rw [hws, List.mem_cons] at hu
      dsimp only
      by_cases hut : u = t
      · subst hut
        refine ⟨fun hmem => ?_, fun hmem => by simp at hmem⟩
        obtain ⟨⟨w', hw'⟩, -⟩ := hu.1 (Or.inr hmem)
        rw [hplace] at hw'
        cases hw'
      · rw [update_of_ne hut]
        by_cases huv : u = v
        · subst huv
          simp [hnodup.1]
        · rw [update_of_ne huv, ← hu]
          simp [huv]
    · intro w' u
      simp only [hout, false_and, iff_false]
      exact hregistered w' u
    · rw [update_of_ne (Ne.symm hvt)]
      exact hblocked

/-- A thread that finds the lock taken sleeps in `lock_acquire`. -/
theorem Coherent.sleep (ht : k.q.lock.holder ≠ some t) (hblocked : k.blocked t = false) :
    Coherent (update place t (.acquire w))
      ⟨{ k.q with lock := ⟨k.q.lock.holder, ⟨k.q.lock.semaphore.value,
        k.q.lock.semaphore.waiters ++ [t]⟩⟩ }, update k.blocked t true⟩ := by
  have hnotwaiting : t ∉ k.q.lock.semaphore.waiters := by
    rw [h.waiters, hblocked]
    simp
  refine ⟨h.free, fun u => ?_, ?_, fun u => ?_, fun w' u => ?_⟩
  · by_cases hu : u = t
    · subst hu
      simp [ht]
    · rw [update_of_ne hu]
      exact h.holder u
  · exact h.nodup.append (List.nodup_singleton t) (by simpa using hnotwaiting)
  · by_cases hu : u = t
    · subst hu
      simp
    · dsimp only
      rw [update_of_ne hu, update_of_ne hu, ← h.waiters u]
      simp [hu]
  · by_cases hu : u = t
    · subst hu
      simpa using h.waiter_ne fun _ => hblocked
    · dsimp only
      rw [update_of_ne hu, update_of_ne hu]
      exact h.registered w' u

/-- A thread that finds it free takes it and sleeps in `wait`. -/
theorem Coherent.take (hfree : k.q.lock.holder = none) (hblocked : k.blocked t = false) :
    Coherent (update place t (.wait w))
      ⟨({ k.q with lock := ⟨some t, ⟨0, k.q.lock.semaphore.waiters⟩⟩ } : Intq τ).setWaiter w
        (some t), update k.blocked t true⟩ := by
  -- while the lock is free, nobody is in `wait`
  have hnobody : ∀ u w', place u ≠ .wait w' := fun u w' => h.ne_wait (by simp [hfree])
  have hregistered : ∀ w' u, k.q.waiter w' ≠ some u := fun w' u => h.waiter_ne (by simp [hfree])
  refine ⟨by simp, fun u => ?_, by simpa using h.nodup, fun u => ?_, fun w' u => ?_⟩
  · by_cases hu : u = t
    · subst hu
      simp
    · rw [update_of_ne hu]
      simp [hnobody, Ne.symm hu]
  · dsimp only
    rw [setWaiter_lock, h.waiters]
    by_cases hu : u = t
    · subst hu
      simp [hblocked]
    · rw [update_of_ne hu, update_of_ne hu]
  · dsimp only
    rw [waiter_setWaiter]
    by_cases hu : u = t
    · subst hu
      by_cases hw' : w' = w
      · simp [hw']
      · simp [hw', Ne.symm hw', hregistered]
    · rw [update_of_ne hu]
      by_cases hw' : w' = w
      · simp [hw', Ne.symm hu, hnobody]
      · simp [hw', hregistered, hnobody]

/-- A thread takes the lock and waits, or sleeps in `lock_acquire`. The assertion of `wait` fails
when the condition has become true while the thread slept in `lock_acquire`. -/
theorem ends_semaDown (hplace : place t = .out ∨ ∃ w', place t = .acquire w')
    (hblocked : k.blocked t = false) :
    ends (semaDown t w) k
      (fun p k' => Coherent (update place t (p.place w)) k' ∧ k'.q.ring = k.q.ring ∧
        p ≠ .ready)
      fun e => e = .waitCondition ∧ k.q.holds w = true := by
  have hnotholder : k.q.lock.holder ≠ some t := by
    intro hh
    obtain ⟨w', hw'⟩ := (h.holder t).1 hh
    rcases hplace with ht | ⟨w'', ht⟩ <;> rw [ht] at hw' <;> cases hw'
  simp only [semaDown, ends_bind, ends_get, Semaphore.down]
  by_cases hvalue : k.q.lock.semaphore.value = 0
  · rw [if_pos hvalue]
    simp only [threadBlock, ends_bind, ends_modify, ends_pure]
    exact ⟨h.sleep hnotholder hblocked, trivial, Progress.noConfusion⟩
  · have hfree : k.q.lock.holder = none := by
      by_contra hh
      rw [h.free, if_neg hh] at hvalue
      exact hvalue rfl
    have hone : k.q.lock.semaphore.value = 1 := by
      rw [h.free, if_pos hfree]
    rw [if_neg hvalue]
    simp only [wait, threadBlock, ends_bind, ends_get, ends_check, ends_modify, ends_pure, hone]
    exact ⟨fun _ => ⟨h.take hfree hblocked, setWaiter_ring _ _, Progress.noConfusion⟩,
      fun hn => ⟨trivial, by simpa using hn⟩⟩

/-- The loop from its test on ends without a failure: the test and the assertion of `wait` are made
in one step. -/
theorem ends_await (hplace : place t = .out) (hblocked : k.blocked t = false) :
    ends (await t w) k
      (fun p k' => Coherent (update place t (p.place w)) k' ∧ k'.q.ring = k.q.ring ∧
        (p = .ready → k'.q.holds w = true))
      fun _ => False := by
  have hstay : update place t .out = place := by
    rw [← hplace]
    exact update_eq_self t place
  simp only [await, ends_bind, ends_get]
  by_cases hw : k.q.holds w = true
  · rw [if_pos hw, ends_pure]
    exact ⟨by rw [Progress.place, hstay]; exact h, rfl, fun _ => hw⟩
  · rw [if_neg hw]
    rw [ends_bind, ends_check]
    refine ⟨fun _ => ?_, fun hn => ?_⟩
    · refine ends_mono (ends_semaDown h (Or.inl hplace) hblocked) ?_ ?_
      · rintro p k' ⟨hc, hring, hp⟩
        exact ⟨hc, hring, fun he => absurd (hp he) id⟩
      · rintro e ⟨-, hw'⟩
        exact absurd hw' hw
    · obtain ⟨w', hw'⟩ := (h.holder t).1 (not_not.1 hn)
      rw [hplace] at hw'
      cases hw'

/-- The loop from the return of `wait` on ends without a failure. -/
theorem ends_afterWait {w' : Waiter} (hplace : place t = .wait w')
    (hblocked : k.blocked t = false) :
    ends (afterWait t w) k
      (fun p k' => Coherent (update place t (p.place w)) k' ∧ k'.q.ring = k.q.ring ∧
        (p = .ready → k'.q.holds w = true))
      fun _ => False := by
  rw [afterWait, ends_bind]
  refine ends_mono (ends_lockRelease h hplace hblocked) ?_ fun _ => id
  rintro - k₁ ⟨h₁, hring₁, hblocked₁⟩
  refine ends_mono (ends_await h₁ (update_self ..) hblocked₁) ?_ fun _ => id
  rintro p k₂ ⟨h₂, hring₂, hready⟩
  rw [update_idem] at h₂
  exact ⟨h₂, hring₂.trans hring₁, hready⟩

/-! ## Bytes -/

/-- A byte is taken out. -/
theorem ends_takeByte (hv : k.q.ring.Valid intqBufsize) (hw : k.q.holds .notEmpty = true) :
    ends takeByte k (fun b k' => b = k.q.ring.front ∧ Coherent place k' ∧
      k'.q.ring = k.q.ring.drop intqBufsize) fun _ => False := by
  have hempty : k.q.ring.empty = false := by simpa [Intq.holds, Intq.empty] using hw
  have hroom := Buffer.full_drop hv hempty
  simp only [takeByte, ends_bind, ends_get, ends_modify, ends_pure]
  refine ends_mono (ends_signal ⟨h.free, h.holder, h.nodup, h.waiters, h.registered⟩ ?_) ?_
    fun _ => id
  · simp [Intq.holds, Intq.full, hroom]
  · rintro - k' ⟨hc, hring⟩
    exact ⟨trivial, hc, hring⟩

/-- A byte is put in. -/
theorem ends_addByte (hv : k.q.ring.Valid intqBufsize) (hw : k.q.holds .notFull = true)
    (b : UInt8) :
    ends (addByte b) k (fun _ k' => Coherent place k' ∧ k'.q.ring = k.q.ring.put intqBufsize b)
      fun _ => False := by
  have hfull : k.q.ring.full intqBufsize = false := by simpa [Intq.holds, Intq.full] using hw
  have hsome := Buffer.empty_put hv b hfull
  simp only [addByte, ends_bind, ends_modify]
  refine ends_signal ⟨h.free, h.holder, h.nodup, h.waiters, h.registered⟩ ?_
  simp [Intq.holds, Intq.empty, hsome]

end

end Pintos.Devices.InterruptQueue
