import Pintos.Lib.Runs
import Pintos.Devices.InterruptQueue

/-!
# Threads and interrupt handlers on one queue

Any number of threads call `intq_getc` and `intq_putc`, and interrupt handlers call `intq_putc` when
the queue is not full and `intq_getc` when it is not empty. A run is a list of steps: a thread
enters a function, a thread that has woken up goes on to the next point where it sleeps or returns,
or a handler runs. A failed assertion ends the run.

Two results. The bytes come out in the order in which they went in (`intq_fifo`). Only one assertion
can fail, that of `wait`, and only for a thread that slept in `lock_acquire` after it had tested its
condition; when no thread has to sleep there, none fails (`wait_assertion`).
-/

set_option autoImplicit false

namespace Pintos.Devices.InterruptQueueRuns

open Function Lib.StateExcept Lib.RingBuffer Lib.Runs
open InterruptQueue

/-- A call of one of the two functions. -/
inductive Op where
  | getc
  | putc (byte : UInt8)

/-- The condition that a call waits for. -/
def Op.waiter : Op → Waiter
  | .getc => .notEmpty
  | .putc _ => .notFull

/-- Where a thread is, and in which call. -/
inductive Pc where
  | out
  | acquire (op : Op)
  | wait (op : Op)

/-- The thread sleeps, or has slept, in `lock_acquire`. -/
def Pc.isAcquire : Pc → Bool
  | .acquire _ => true
  | _ => false

def Pc.place : Pc → Place
  | .out => .out
  | .acquire op => .acquire op.waiter
  | .wait op => .wait op.waiter

variable {τ : Type} [DecidableEq τ]

/-- The queue, the threads, and the bytes that have gone through the queue. -/
structure System (τ : Type) where
  k : QueueState τ
  pc : τ → Pc
  /-- The bytes that `intq_getc` has returned, in order. -/
  returned : List UInt8
  /-- The bytes that `intq_putc` has accepted, in order. -/
  accepted : List UInt8
  failed : Option Failure

/-- Code on the whole system. -/
abbrev SystemM (τ α : Type) : Type := Comp (System τ) Failure α

/-- Code on the queue. -/
def onQueue {α : Type} (x : QueueM τ α) : SystemM τ α :=
  zoom System.k (fun s k => { s with k := k }) x

def setPc (t : τ) (pc : Pc) : SystemM τ Unit :=
  modify fun s => { s with pc := update s.pc t pc }

/-- The part of a call after its loop. -/
def finish : Op → SystemM τ Unit
  | .getc => do
    let byte ← onQueue takeByte
    modify fun s => { s with returned := s.returned ++ [byte] }
  | .putc byte => do
    onQueue (addByte byte)
    modify fun s => { s with accepted := s.accepted ++ [byte] }

/-- A thread returns from its call, or sleeps. -/
def proceed (t : τ) (op : Op) : Progress → SystemM τ Unit
  | .ready => do
    setPc t .out
    finish op
  | .inAcquire => setPc t (.acquire op)
  | .inWait => setPc t (.wait op)

/-- What happens next. -/
inductive Action (τ : Type) where
  | call (t : τ) (op : Op)
  | resume (t : τ)
  | interrupt (op : Op)

/-- A thread calls a function when it is in none and runs on when it is not asleep; handlers call
the functions only when they need not wait. -/
def enabled (s : System τ) : Action τ → Bool
  | .call t _ =>
    match s.pc t with
    | .out => !s.k.blocked t
    | _ => false
  | .resume t =>
    match s.pc t with
    | .out => false
    | _ => !s.k.blocked t
  | .interrupt op => s.k.q.holds op.waiter

/-- The code that runs in a step. -/
def perform (a : Action τ) : SystemM τ Unit := do
  let s ← get
  match a with
  | .call t op => onQueue (await t op.waiter) >>= proceed t op
  | .resume t =>
    match s.pc t with
    | .out => pure ()
    | .acquire op => onQueue (semaDown t op.waiter) >>= proceed t op
    | .wait op => onQueue (afterWait t op.waiter) >>= proceed t op
  | .interrupt op => finish op

/-- One step. After a failed assertion there is none. -/
def step (s : System τ) (a : Action τ) : Option (System τ) :=
  if s.failed = none ∧ enabled s a = true then
    match perform a s with
    | .ok (_, s') => some s'
    | .error f => some { s with failed := some f }
  else none

/-- After `intq_init`. -/
def start (buf : Nat → UInt8) : System τ where
  k := ⟨.init buf, fun _ => false⟩
  pc := fun _ => .out
  returned := []
  accepted := []
  failed := none

/-! ## The invariant -/

/-- The threads are where the queue says they are, the positions are in the buffer, and the queue
holds what has been accepted and not returned. -/
structure Inv (s : System τ) : Prop where
  coherent : Coherent (fun t => (s.pc t).place) s.k
  valid : s.k.q.ring.Valid intqBufsize
  fifo : s.returned ++ s.k.q.ring.contents intqBufsize = s.accepted

variable {s s' : System τ} {a : Action τ}

omit [DecidableEq τ] in
theorem inv_start (buf : Nat → UInt8) : Inv (start buf : System τ) where
  coherent :=
    { free := rfl
      holder := fun t => by simp [start, Intq.init, Pintos.Threads.Synch.lockInit, Pc.place]
      nodup := List.nodup_nil
      waiters := fun t => by
        simp [start, Intq.init, Pintos.Threads.Synch.lockInit,
          Pintos.Threads.Synch.semaInit, Pc.place]
      registered := fun w t => by cases w <;> simp [start, Intq.init, Intq.waiter, Pc.place] }
  valid := ⟨Nat.succ_pos 63, Nat.succ_pos 63⟩
  fifo := rfl

/-- The call finds its condition true and ends. -/
theorem ends_finish (h : Inv s) {op : Op} (hw : s.k.q.holds op.waiter = true) :
    ends (finish op) s (fun _ s' => Inv s' ∧ s'.pc = s.pc ∧ s'.failed = s.failed)
      fun _ => False := by
  cases op with
  | getc =>
    have hempty : s.k.q.ring.empty = false := by simpa [Op.waiter, Intq.holds, Intq.empty] using hw
    simp only [finish, onQueue, ends_bind, ends_zoom, ends_modify]
    refine ends_mono (ends_takeByte h.coherent h.valid hw) ?_ fun _ => id
    rintro byte k ⟨hbyte, hk, hring⟩
    refine ⟨⟨hk, ?_, ?_⟩, trivial, trivial⟩
    · rw [hring]
      exact h.valid.drop
    · rw [← h.fifo, Buffer.contents_drop h.valid hempty, hbyte, hring]
      simp
  | putc byte =>
    have hfull : s.k.q.ring.full intqBufsize = false := by
      simpa [Op.waiter, Intq.holds, Intq.full] using hw
    simp only [finish, onQueue, ends_bind, ends_zoom, ends_modify]
    refine ends_mono (ends_addByte h.coherent h.valid hw byte) ?_ fun _ => id
    rintro - k ⟨hk, hring⟩
    refine ⟨⟨hk, ?_, ?_⟩, trivial, trivial⟩
    · rw [hring]
      exact h.valid.put byte
    · rw [hring, Buffer.contents_put h.valid byte hfull, ← List.append_assoc, h.fifo]

/-- A thread goes on after its loop has come to an end or to a point where it sleeps. -/
theorem ends_proceed {t : τ} {op : Op} {p : Progress} {k : QueueState τ} (h : Inv s)
    (hk : Coherent (update (fun u => (s.pc u).place) t (p.place op.waiter)) k)
    (hring : k.q.ring = s.k.q.ring) (hready : p = .ready → k.q.holds op.waiter = true) :
    ends (proceed t op p) { s with k := k } (fun _ s' => Inv s' ∧ s'.failed = s.failed)
      fun _ => False := by
  have hplace : ∀ pc : Pc, pc.place = p.place op.waiter →
      (fun u => (update s.pc t pc u).place) =
        update (fun u => (s.pc u).place) t (p.place op.waiter) := by
    intro pc hpc
    funext u
    by_cases hu : u = t
    · subst hu
      rw [update_self, update_self, hpc]
    · rw [update_of_ne hu, update_of_ne hu]
  have hvalid : k.q.ring.Valid intqBufsize := hring ▸ h.valid
  have hfifo : s.returned ++ k.q.ring.contents intqBufsize = s.accepted := hring ▸ h.fifo
  have hmoved : ∀ pc : Pc, pc.place = p.place op.waiter →
      Inv { s with k := k, pc := update s.pc t pc } := by
    intro pc hpc
    refine ⟨?_, hvalid, hfifo⟩
    rw [show (fun u => (update s.pc t pc u).place) = _ from hplace pc hpc]
    exact hk
  cases p with
  | ready =>
    refine ends_mono (ends_finish (hmoved .out rfl) (hready rfl)) ?_ fun _ => id
    rintro - s' ⟨hinv, -, hfailed⟩
    exact ⟨hinv, hfailed⟩
  | inAcquire => exact ⟨hmoved _ rfl, rfl⟩
  | inWait => exact ⟨hmoved _ rfl, rfl⟩

/-- A step keeps the invariant, and only a thread that slept in `lock_acquire` can fail. -/
theorem ends_perform (h : Inv s) (hen : enabled s a = true) :
    ends (perform a) s (fun _ s' => Inv s' ∧ s'.failed = s.failed)
      fun e => e = .waitCondition ∧ ∃ t, (s.pc t).isAcquire = true := by
  rw [perform, ends_bind, ends_get]
  cases a with
  | call t op =>
    cases hpc : s.pc t with
    | out =>
      have hblocked : s.k.blocked t = false := by simpa [enabled, hpc] using hen
      simp only [ends_bind, onQueue, ends_zoom]
      refine ends_mono (ends_await h.coherent (by rw [hpc]; rfl) hblocked) ?_ fun _ => False.elim
      rintro p k ⟨hk, hring, hready⟩
      exact ends_mono (ends_proceed h hk hring hready) (fun _ _ => id) fun _ => False.elim
    | acquire op' => simp [enabled, hpc] at hen
    | wait op' => simp [enabled, hpc] at hen
  | resume t =>
    cases hpc : s.pc t with
    | out => simp [enabled, hpc] at hen
    | acquire op =>
      have hblocked : s.k.blocked t = false := by simpa [enabled, hpc] using hen
      simp only [hpc, ends_bind, onQueue, ends_zoom]
      refine ends_mono
        (ends_semaDown h.coherent (Or.inr ⟨op.waiter, by rw [hpc]; rfl⟩) hblocked) ?_ ?_
      · rintro p k ⟨hk, hring, hready⟩
        exact ends_mono (ends_proceed h hk hring fun e => absurd e hready) (fun _ _ => id)
          fun _ => False.elim
      · rintro e ⟨he, -⟩
        exact ⟨he, t, by rw [hpc]; rfl⟩
    | wait op =>
      have hblocked : s.k.blocked t = false := by simpa [enabled, hpc] using hen
      have hplace : (s.pc t).place = .wait op.waiter := by rw [hpc]; rfl
      simp only [hpc, ends_bind, onQueue, ends_zoom]
      refine ends_mono (ends_afterWait h.coherent hplace hblocked) ?_ fun _ => False.elim
      rintro p k ⟨hk, hring, hready⟩
      exact ends_mono (ends_proceed h hk hring hready) (fun _ _ => id) fun _ => False.elim
  | interrupt op =>
    refine ends_mono (ends_finish h hen) ?_ fun _ => False.elim
    rintro - s' ⟨hinv, -, hfailed⟩
    exact ⟨hinv, hfailed⟩

/-- What a step does: it keeps the invariant, and if an assertion fails, it is that of `wait` in a
thread that slept in `lock_acquire`. -/
theorem step_inv (h : Inv s) (hs : step s a = some s') :
    Inv s' ∧ (s'.failed = none ∨
      s'.failed = some .waitCondition ∧ ∃ t, (s.pc t).isAcquire = true) := by
  unfold step at hs
  by_cases hcond : s.failed = none ∧ enabled s a = true
  · rw [if_pos hcond] at hs
    have hends := ends_perform h hcond.2
    cases hx : perform a s with
    | ok r =>
      rw [hx, Option.some.injEq] at hs
      obtain ⟨hinv, hfailed⟩ := ends_of_eq_ok hends hx
      rw [← hs]
      exact ⟨hinv, Or.inl (hfailed.trans hcond.1)⟩
    | error e =>
      rw [hx, Option.some.injEq] at hs
      obtain ⟨he, hacquire⟩ := ends_of_eq_error hends hx
      rw [← hs, he]
      exact ⟨⟨h.coherent, h.valid, h.fifo⟩, Or.inr ⟨rfl, hacquire⟩⟩
  · rw [if_neg hcond] at hs
    cases hs

theorem run_inv {buf : Nat → UInt8} {l : List (Action τ)} (hrun : run step (start buf) l = some s) :
    Inv s :=
  run_invariant (P := fun _ => True) (fun _ _ _ _ hi hs => (step_inv hi hs).1) (fun _ _ => trivial)
    (inv_start buf) hrun

/-- First in, first out: in every state the positions are in the buffer, which holds at most one
byte less than its size, and the bytes returned so far, followed by the bytes in the queue, are the
bytes accepted so far. -/
theorem intq_fifo (buf : Nat → UInt8) (l : List (Action τ)) (s : System τ)
    (hrun : run step (start buf) l = some s) :
    s.k.q.ring.head < intqBufsize ∧ s.k.q.ring.tail < intqBufsize ∧
    (s.k.q.ring.contents intqBufsize).length ≤ intqBufsize - 1 ∧
    s.returned ++ s.k.q.ring.contents intqBufsize = s.accepted := by
  have h := run_inv hrun
  have hlt := h.valid.count_lt
  refine ⟨h.valid.head, h.valid.tail, ?_, h.fifo⟩
  rw [Buffer.length_contents]
  omega

/-- A handler puts bytes in while a thread sleeps, and the thread takes the first one. -/
def handOver : List (Action Bool) :=
  [.call true .getc, .interrupt (.putc 7), .interrupt (.putc 9), .resume true]

theorem intq_fifo_handOver :
    ∃ s, run step (start fun _ => 0) handOver = some s ∧
      s.returned = [7] ∧ s.returned ++ s.k.q.ring.contents intqBufsize = [7, 9] := by
  refine exists_end (p := fun s => s.returned = [7] ∧ s.accepted = [7, 9]) (by decide +kernel)
    fun s hs hbytes => ?_
  obtain ⟨-, -, -, hfifo⟩ := intq_fifo _ _ s hs
  exact ⟨hbytes.1, hfifo.trans hbytes.2⟩

/-! ## The assertion of `wait` -/

/-- In every run, at most one thread sleeps for each of the two conditions, the one that is
registered, and no assertion fails but that of `wait`. When no thread has had to sleep in
`lock_acquire`, that one does not fail either. -/
theorem wait_assertion (buf : Nat → UInt8) (l : List (Action τ)) (s : System τ)
    (hrun : run step (start buf) l = some s) :
    (∀ w t, s.k.q.waiter w = some t ↔ (s.pc t).place = .wait w ∧ s.k.blocked t = true) ∧
    (∀ t u w w', (s.pc t).place = .wait w → (s.pc u).place = .wait w' → t = u) ∧
    (s.failed = none ∨ s.failed = some .waitCondition) ∧
    ((∀ n s', run step (start buf) (l.take n) = some s' → ∀ t, (s'.pc t).isAcquire = false) →
      s.failed = none) := by
  have h := run_inv hrun
  refine ⟨h.coherent.registered, ?_, ?_⟩
  · intro t u w w' ht hu
    have ht' := (h.coherent.holder t).2 ⟨w, ht⟩
    have hu' := (h.coherent.holder u).2 ⟨w', hu⟩
    rw [ht', Option.some.injEq] at hu'
    exact hu'
  · -- what failed, failed in the last step
    rcases List.eq_nil_or_concat l with hl | ⟨l₁, a, hl⟩
    · subst hl
      cases hrun
      exact ⟨Or.inl rfl, fun _ => rfl⟩
    · rw [List.concat_eq_append] at hl
      subst hl
      obtain ⟨s₁, hrun₁, hrun₂⟩ := run_append_iff.1 hrun
      obtain ⟨s₂, hstep, hs₂⟩ := run_cons_iff.1 hrun₂
      cases hs₂
      have hfailed := (step_inv (run_inv hrun₁) hstep).2
      refine ⟨hfailed.imp id And.left, fun hquiet => ?_⟩
      refine hfailed.resolve_right ?_
      rintro ⟨-, t, ht⟩
      have hnot := hquiet l₁.length s₁ (by rw [List.take_left]; exact hrun₁) t
      rw [ht] at hnot
      cases hnot

theorem wait_assertion_handOver :
    ∃ s, run step (start fun _ => 0) handOver = some s ∧ s.failed = none := by
  have hany : (run step (start fun _ => 0) handOver).isSome = true := by
    decide +kernel
  obtain ⟨s, hs⟩ := Option.isSome_iff_exists.1 hany
  have hquiet : ∀ n < 5, (run step (start fun _ => 0) (handOver.take n)).all
      (fun s' => !(s'.pc true).isAcquire && !(s'.pc false).isAcquire) = true := by
    decide +kernel
  refine ⟨s, hs, (wait_assertion _ _ s hs).2.2.2 fun n s' hs' t => ?_⟩
  have htake : handOver.take n = handOver.take (min n 4) := by
    rw [← List.take_take]
    rfl
  have hall := hquiet (min n 4) (by omega)
  rw [← htake, hs', Option.all_some, Bool.and_eq_true, Bool.not_eq_true', Bool.not_eq_true'] at hall
  cases t with
  | true => exact hall.1
  | false => exact hall.2

/-- Two readers, and two bytes that arrive before the first of them has run: the second one has
slept in `lock_acquire` and finds the queue not empty. -/
theorem wait_assertion_fails :
    ∃ s, run step (start fun _ => 0)
      [.call true .getc, .call false .getc, .interrupt (.putc 7), .interrupt (.putc 9),
        .resume true, .resume false] = some s ∧ s.failed = some .waitCondition :=
  exists_end (p := fun s => s.failed = some .waitCondition) (by decide +kernel) fun _ _ => id

end Pintos.Devices.InterruptQueueRuns
