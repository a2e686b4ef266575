import Pintos.Threads.Locks

/-!
# Completion interrupts of a disk channel

Any number of threads call `disk_read` and `disk_write` on the disks of one ATA channel. A call
takes the channel's lock, announces an interrupt (`expecting_interrupt`), writes the command, and
waits on `completion_wait` for the interrupt handler; a write transfers its data before it waits, a
read afterwards. Interrupts arrive while the threads run: one for each command that has been
written, at some time after it, and spurious ones while no command is outstanding. The contents of
the sectors and the polling of the status register are left out; a failed command stops the kernel,
and with it the run.

A command is outstanding from the write of the command register to the moment its caller has come
through `sema_down`.
-/

set_option autoImplicit false

namespace Pintos.Devices.DiskChannel

open Function Lib.Runs Threads.Synch Threads.Locks

/-- The two calls. -/
inductive Op where
  | read
  | write
  deriving DecidableEq

/-- Where a thread is in `disk_read` or `disk_write`. -/
inductive Pc where
  | out
  /-- At or in `lock_acquire`. -/
  | locking (op : Op)
  /-- In `select_sector`. -/
  | selecting (op : Op)
  /-- In `issue_pio_command`, before `expecting_interrupt` is set. -/
  | announcing (op : Op)
  /-- In `issue_pio_command`, before the command register is written. -/
  | commanding (op : Op)
  /-- In `disk_write`, before `output_sector` has ended. -/
  | sending
  /-- In the loop of `sema_down`. -/
  | waiting (op : Op)
  /-- In `disk_read`, before `input_sector` has ended. -/
  | receiving
  /-- At or in `lock_release`. -/
  | unlocking
  deriving DecidableEq

/-- What comes after the command has been written. -/
def Op.afterCommand : Op → Pc
  | .read => .waiting .read
  | .write => .sending

/-- What comes after `sema_down`. -/
def Op.afterWait : Op → Pc
  | .read => .receiving
  | .write => .unlocking

variable {τ : Type} [DecidableEq τ]

/-- `struct channel`, the threads, and what is known about the commands. -/
structure ChannelState (τ : Type) where
  /-- `lock`, and the places of the threads in its code. -/
  lock : LockState τ
  expectingInterrupt : Bool
  completionWait : Semaphore τ
  /-- The threads that sleep in `sema_down` of `completion_wait`. -/
  blocked : τ → Bool
  pc : τ → Pc
  /-- The thread whose command is outstanding. -/
  outstanding : Option τ
  /-- The threads whose commands have not raised their interrupt yet, in order. -/
  raising : List τ
  /-- The interrupt of the thread's last command has been handled. -/
  handled : τ → Bool
  /-- A thread has come through `sema_down` before the interrupt of its command was handled. -/
  early : Bool
  /-- The assertion of `thread_unblock` has failed. -/
  failed : Bool

/-- What happens next: a thread calls, a thread goes on, or an interrupt arrives. -/
inductive Action (τ : Type) where
  | call (t : τ) (op : Op)
  | go (t : τ)
  /-- The interrupt of a command. -/
  | completion
  /-- An interrupt without a command. -/
  | spurious

namespace ChannelState

def setPc (s : ChannelState τ) (t : τ) (pc : Pc) : ChannelState τ :=
  { s with pc := update s.pc t pc }

/-- The next step of `lock_acquire`. -/
def goLock (s : ChannelState τ) (t : τ) (op : Op) : Option (ChannelState τ) :=
  (lockStep s.lock (t, if s.lock.pc t = .out then .acquire else .go)).map fun l =>
    let s' := { s with lock := l }
    if l.pc t = .holding then s'.setPc t (.selecting op) else s'

/-- The next step of `lock_release`. -/
def goUnlock (s : ChannelState τ) (t : τ) : Option (ChannelState τ) :=
  (lockStep s.lock (t, if s.lock.pc t = .holding then .release else .go)).map fun l =>
    let s' := { s with lock := l }
    if l.pc t = .out then s'.setPc t .out else s'

/-- The command register is written. -/
def issue (s : ChannelState τ) (t : τ) (op : Op) : ChannelState τ :=
  { s with
    outstanding := some t
    raising := s.raising ++ [t]
    handled := update s.handled t false }.setPc t op.afterCommand

/-- A pass through the loop of `sema_down (&c->completion_wait)`. -/
def goWait (s : ChannelState τ) (t : τ) (op : Op) : ChannelState τ :=
  match s.completionWait.down t with
  | (true, sema) =>
    { s with
      completionWait := sema
      outstanding := none
      early := s.early || !s.handled t }.setPc t op.afterWait
  | (false, sema) =>
    { s with
      completionWait := sema
      blocked := update s.blocked t true }

/-- The next step of a call. -/
def go (s : ChannelState τ) (t : τ) : Option (ChannelState τ) :=
  match s.pc t with
  | .out => none
  | .locking op => s.goLock t op
  | .selecting op => some (s.setPc t (.announcing op))
  | .announcing op => some ({ s with expectingInterrupt := true }.setPc t (.commanding op))
  | .commanding op => some (s.issue t op)
  | .sending => some (s.setPc t (.waiting .write))
  | .waiting op => some (s.goWait t op)
  | .receiving => some (s.setPc t .unlocking)
  | .unlocking => s.goUnlock t

/-- `interrupt_handler`, for an interrupt of this channel. -/
def interruptHandler (s : ChannelState τ) : ChannelState τ :=
  if s.expectingInterrupt then
    match s.completionWait.up with
    | (none, sema) => { s with completionWait := sema }
    | (some t, sema) =>
      if s.blocked t then
        { s with
          completionWait := sema
          blocked := update s.blocked t false }
      else { s with failed := true }
  else s

end ChannelState

/-- One step. Each command raises one interrupt; others arrive only while no command is
outstanding. -/
def step (s : ChannelState τ) (a : Action τ) : Option (ChannelState τ) :=
  if s.failed = true ∨ s.lock.failed ≠ none then none
  else
    match a with
    | .call t op => if s.pc t = .out then some (s.setPc t (.locking op)) else none
    | .go t => if s.blocked t = true then none else s.go t
    | .completion =>
      match s.raising with
      | [] => none
      | t :: rest =>
        some { s with
          raising := rest
          handled := update s.handled t true }.interruptHandler
    | .spurious =>
      if s.outstanding = none ∧ s.raising = [] then some s.interruptHandler else none

/-- After `disk_init`, which has set `expecting_interrupt` if it has found a disk. -/
def start (expecting : Bool) : ChannelState τ where
  lock := lockStart
  expectingInterrupt := expecting
  completionWait := semaInit 0
  blocked := fun _ => false
  pc := fun _ => .out
  outstanding := none
  raising := []
  handled := fun _ => false
  early := false
  failed := false

/-! ## The invariant -/

/-- The place of a thread in the code of the lock, by its place in its call. -/
def Linked (p : LockPc) : Pc → Prop
  | .out => p = .out
  | .locking _ => p = .out ∨ p = .acquiring ∨ p = .acquired
  | .unlocking => p = .holding ∨ p = .clearing ∨ p = .releasing
  | _ => p = .holding

/-- The points of a call at which its command is outstanding. -/
def Pc.Awaits : Pc → Bool
  | .sending | .waiting _ => true
  | _ => false

/-- The semaphore while the command of `t` is outstanding: the interrupt is still to come, or it has
been handled and `t` has not taken notice of it. -/
inductive Handshake (s : ChannelState τ) (t : τ) : Prop where
  | coming (hraising : s.raising = [t]) (hhandled : s.handled t = false)
      (hvalue : s.completionWait.value = 0)
      (hwaiters : s.completionWait.waiters = if s.blocked t then [t] else [])
      (hwaits : s.blocked t = true → ∃ op, s.pc t = .waiting op)
  | arrived (hraising : s.raising = []) (hhandled : s.handled t = true)
      (hvalue : s.completionWait.value = 1) (hwaiters : s.completionWait.waiters = [])
      (hblocked : s.blocked t = false)

structure Inv (s : ChannelState τ) : Prop where
  lock : LockInv s.lock
  lockOk : s.lock.failed = none
  ok : s.failed = false
  notEarly : s.early = false
  linked : ∀ t, Linked (s.lock.pc t) (s.pc t)
  awaits : ∀ t, (s.pc t).Awaits = true ↔ s.outstanding = some t
  expecting : ∀ t, (s.outstanding = some t ∨ ∃ op, s.pc t = .commanding op) →
    s.expectingInterrupt = true
  /-- Without a command, nothing has happened to the semaphore. -/
  quiet : s.outstanding = none → s.completionWait = semaInit 0 ∧ s.raising = []
  handshake : ∀ t, s.outstanding = some t → Handshake s t
  blocked : ∀ t, s.blocked t = true → s.outstanding = some t

variable {s s' : ChannelState τ} {t : τ} {a : Action τ}

omit [DecidableEq τ] in
theorem inv_start (expecting : Bool) : Inv (start expecting : ChannelState τ) where
  lock := inv_lockStart
  lockOk := rfl
  ok := rfl
  notEarly := rfl
  linked := fun _ => rfl
  awaits := fun t => by simp [start, Pc.Awaits]
  expecting := fun t h => by
    rcases h with h | ⟨op, h⟩
    · cases h
    · cases h
  quiet := fun _ => ⟨rfl, rfl⟩
  handshake := fun t h => by cases h
  blocked := fun t h => by cases h

omit [DecidableEq τ] in
/-- A thread has the lock at every point where its command is outstanding. -/
theorem Inv.holding (h : Inv s) (ht : s.outstanding = some t) : s.lock.pc t = .holding := by
  have hawaits := (h.awaits t).2 ht
  have hlinked := h.linked t
  cases hpc : s.pc t <;> rw [hpc] at hawaits hlinked <;> first | exact hlinked | cases hawaits

omit [DecidableEq τ] in
/-- While a thread has the lock, no command of another thread is outstanding. -/
theorem Inv.outstanding_none (h : Inv s) (hregion : (s.lock.pc t).InRegion = true)
    (hawaits : (s.pc t).Awaits = false) : s.outstanding = none := by
  cases hout : s.outstanding with
  | none => rfl
  | some u =>
    have hu : (s.lock.pc u).InRegion = true := by
      rw [h.holding hout]
      rfl
    have hut := h.lock.exclusive u t hu hregion
    have hau := (h.awaits u).2 hout
    rw [hut, hawaits] at hau
    cases hau

/-- The handshake does not depend on the threads that run. -/
theorem Handshake.setPc {u : τ} (h : Handshake s u) (ht : s.blocked t = false) (p : Pc) :
    Handshake (s.setPc t p) u := by
  cases h with
  | coming hraising hhandled hvalue hwaiters hwaits =>
    refine .coming hraising hhandled hvalue hwaiters fun hb => ?_
    have hut : u ≠ t := by
      intro e
      have hb' : s.blocked u = true := hb
      rw [e, ht] at hb'
      cases hb'
    obtain ⟨op, hop⟩ := hwaits hb
    exact ⟨op, (update_of_ne hut ..).trans hop⟩
  | arrived hraising hhandled hvalue hwaiters hblocked =>
    exact .arrived hraising hhandled hvalue hwaiters hblocked

/-! ## Steps -/

section

variable (h : Inv s)
include h

/-- A thread goes on, with or without a step of the lock, and what is known of the commands
stays. -/
theorem Inv.move {l : LockState τ} (hl : LockInv l) (hok : l.failed = none)
    (hothers : ∀ u, u ≠ t → l.pc u = s.lock.pc u) {p : Pc} (hlinked : Linked (l.pc t) p)
    (hawaits : p.Awaits = (s.pc t).Awaits) (hblocked : s.blocked t = false)
    (hexpecting : (∃ op, p = .commanding op) → s.expectingInterrupt = true) :
    Inv ({ s with lock := l }.setPc t p) := by
  refine ⟨hl, hok, h.ok, h.notEarly, ?_, ?_, ?_, h.quiet, ?_, h.blocked⟩
  · intro u
    by_cases hu : u = t
    · subst hu
      simpa [ChannelState.setPc] using hlinked
    · simpa [ChannelState.setPc, hu, hothers u hu] using h.linked u
  · intro u
    by_cases hu : u = t
    · subst hu
      simpa [ChannelState.setPc, hawaits] using h.awaits u
    · simpa [ChannelState.setPc, hu] using h.awaits u
  · rintro u (hu | ⟨op, hu⟩)
    · exact h.expecting u (.inl hu)
    · by_cases hut : u = t
      · subst hut
        simp only [ChannelState.setPc, update_self] at hu
        exact hexpecting ⟨op, hu⟩
      · simp only [ChannelState.setPc, update_of_ne hut] at hu
        exact h.expecting u (.inr ⟨op, hu⟩)
  · intro u hu
    have hs : Handshake { s with lock := l } u := by
      cases h.handshake u hu with
      | coming hraising hhandled hvalue hwaiters hwaits =>
        exact .coming hraising hhandled hvalue hwaiters hwaits
      | arrived hraising hhandled hvalue hwaiters hblocked =>
        exact .arrived hraising hhandled hvalue hwaiters hblocked
    exact hs.setPc hblocked p

/-- A thread goes on without a step of the lock. -/
theorem Inv.setPc {p : Pc} (hlinked : Linked (s.lock.pc t) p) (hawaits : p.Awaits = (s.pc t).Awaits)
    (hblocked : s.blocked t = false)
    (hexpecting : (∃ op, p = .commanding op) → s.expectingInterrupt = true) :
    Inv (s.setPc t p) :=
  h.move h.lock h.lockOk (fun _ _ => rfl) hlinked hawaits hblocked hexpecting

/-- A step of the lock in the middle of a call of it. -/
theorem Inv.lockStay {l : LockState τ} (hl : LockInv l) (hok : l.failed = none)
    (hothers : ∀ u, u ≠ t → l.pc u = s.lock.pc u) (hlinked : Linked (l.pc t) (s.pc t))
    (hblocked : s.blocked t = false) : Inv { s with lock := l } := by
  have hmove := h.move hl hok hothers hlinked rfl hblocked fun ⟨op, hp⟩ =>
    h.expecting t (.inr ⟨op, hp⟩)
  have hself : ({ s with lock := l } : ChannelState τ).setPc t (s.pc t) = { s with lock := l } := by
    simp [ChannelState.setPc]
  rwa [hself] at hmove

theorem Inv.goLock {op : Op} (hpc : s.pc t = .locking op) (hblocked : s.blocked t = false)
    (hs : s.goLock t op = some s') : Inv s' := by
  obtain ⟨l, hlock, rfl⟩ := Option.map_eq_some_iff.1 hs
  have hplace := h.linked t
  rw [hpc] at hplace
  obtain ⟨hl, hok, hothers, hcases⟩ := lockStep_inAcquire h.lock h.lockOk hplace hlock
  rcases hcases with ⟨-, hself⟩ | ⟨-, hself⟩ | ⟨-, hself⟩
  · simp only [hself, reduceCtorEq, if_false]
    exact h.lockStay hl hok hothers (by rw [hself, hpc]; exact .inr (.inl rfl)) hblocked
  · simp only [hself, reduceCtorEq, if_false]
    exact h.lockStay hl hok hothers (by rw [hself, hpc]; exact .inr (.inr rfl)) hblocked
  · simp only [hself, if_true]
    exact h.move hl hok hothers hself (by rw [hpc]; rfl) hblocked fun ⟨_, hp⟩ => by cases hp

theorem Inv.goUnlock (hpc : s.pc t = .unlocking) (hblocked : s.blocked t = false)
    (hs : s.goUnlock t = some s') : Inv s' := by
  obtain ⟨l, hlock, rfl⟩ := Option.map_eq_some_iff.1 hs
  have hplace := h.linked t
  rw [hpc] at hplace
  obtain ⟨hl, hok, hothers, hself | hself | hself⟩ :=
    lockStep_inRelease h.lock h.lockOk hplace hlock
  · simp only [hself, reduceCtorEq, if_false]
    exact h.lockStay hl hok hothers (by rw [hself, hpc]; exact .inr (.inl rfl)) hblocked
  · simp only [hself, reduceCtorEq, if_false]
    exact h.lockStay hl hok hothers (by rw [hself, hpc]; exact .inr (.inr rfl)) hblocked
  · simp only [hself, if_true]
    exact h.move hl hok hothers hself (by rw [hpc]; rfl) hblocked fun ⟨_, hp⟩ => by cases hp

/-- The command is written by the thread that has the lock, so none was outstanding. -/
theorem Inv.issue {op : Op} (hpc : s.pc t = .commanding op) (hblocked : s.blocked t = false) :
    Inv (s.issue t op) := by
  have hholding : s.lock.pc t = .holding := by
    have hlinked := h.linked t
    rw [hpc] at hlinked
    exact hlinked
  have hnone : s.outstanding = none :=
    h.outstanding_none (by rw [hholding]; rfl) (by rw [hpc]; rfl)
  obtain ⟨hsema, hraising⟩ := h.quiet hnone
  have hothers : ∀ u, u ≠ t → (s.issue t op).pc u = s.pc u := fun u hu =>
    update_of_ne hu ..
  have hself : (s.issue t op).pc t = op.afterCommand := update_self ..
  refine ⟨h.lock, h.lockOk, h.ok, h.notEarly, ?_, ?_, ?_, ?_, ?_, ?_⟩
  · intro u
    by_cases hu : u = t
    · subst hu
      rw [hself]
      cases op <;> exact hholding
    · rw [hothers u hu]
      exact h.linked u
  · intro u
    by_cases hu : u = t
    · subst hu
      rw [hself]
      cases op <;> exact ⟨fun _ => rfl, fun _ => rfl⟩
    · rw [hothers u hu, h.awaits u, hnone]
      change none = some u ↔ some t = some u
      simp [Ne.symm hu]
  · intro u _
    exact h.expecting t (.inr ⟨op, hpc⟩)
  · intro hn
    cases hn
  · intro u hu
    cases hu
    refine .coming (by rw [show (s.issue t op).raising = s.raising ++ [t] from rfl, hraising]; rfl)
      (update_self ..) ?_ ?_ ?_
    · change s.completionWait.value = 0
      rw [hsema]
      rfl
    · change s.completionWait.waiters = if s.blocked t then [t] else []
      rw [hsema, hblocked]
      rfl
    · intro hb
      exact absurd hb (by simp [ChannelState.issue, ChannelState.setPc, hblocked])
  · intro u hb
    have hu : s.outstanding = some u := h.blocked u hb
    rw [hnone] at hu
    cases hu

/-- A thread comes through `sema_down` only when its interrupt has been handled. -/
theorem Inv.goWait {op : Op} (hpc : s.pc t = .waiting op) (hblocked : s.blocked t = false) :
    Inv (s.goWait t op) := by
  have hout : s.outstanding = some t := (h.awaits t).1 (by rw [hpc]; rfl)
  have hholding := h.holding hout
  cases h.handshake t hout with
  | coming hraising hhandled hvalue hwaiters hwaits =>
    -- the handler has not run: the thread goes to sleep
    simp only [ChannelState.goWait, Semaphore.down, if_pos hvalue]
    refine ⟨h.lock, h.lockOk, h.ok, h.notEarly, h.linked, h.awaits, h.expecting, ?_, ?_, ?_⟩
    · intro hn
      rw [hout] at hn
      cases hn
    · intro u hu
      rw [hout, Option.some.injEq] at hu
      subst hu
      refine .coming hraising hhandled hvalue ?_ fun _ => ⟨op, hpc⟩
      simp [hwaiters, hblocked]
    · intro u hb
      by_cases hu : u = t
      · rw [hu]
        exact hout
      · dsimp only at hb
        rw [update_of_ne hu] at hb
        exact h.blocked u hb
  | arrived hraising hhandled hvalue hwaiters hb =>
    -- the handler has run: the thread goes on, and no command is outstanding
    have hne : ¬ s.completionWait.value = 0 := by rw [hvalue]; exact Nat.one_ne_zero
    simp only [ChannelState.goWait, Semaphore.down, if_neg hne]
    have hself : ∀ {s₁ : ChannelState τ} {p : Pc}, (s₁.setPc t p).pc t = p := update_self ..
    have hothers : ∀ {s₁ : ChannelState τ} {p : Pc} u, u ≠ t → (s₁.setPc t p).pc u = s₁.pc u :=
      fun u hu => update_of_ne hu ..
    refine ⟨h.lock, h.lockOk, h.ok, ?_, ?_, ?_, ?_, ?_, ?_, ?_⟩
    · rw [h.notEarly, hhandled]
      rfl
    · intro u
      by_cases hu : u = t
      · subst hu
        rw [hself]
        cases op with
        | read => exact hholding
        | write => exact .inl hholding
      · rw [hothers u hu]
        exact h.linked u
    · intro u
      by_cases hu : u = t
      · subst hu
        cases op <;> simp [Op.afterWait, Pc.Awaits, ChannelState.setPc]
      · rw [hothers u hu]
        change (s.pc u).Awaits = true ↔ none = some u
        rw [h.awaits u, hout]
        simp [Ne.symm hu]
    · intro u _
      exact h.expecting t (.inl hout)
    · intro _
      refine ⟨?_, hraising⟩
      rw [hvalue, hwaiters]
      rfl
    · intro u hu
      cases hu
    · intro u hbu
      have hu : s.outstanding = some u := h.blocked u hbu
      rw [hout, Option.some.injEq] at hu
      have hbu' : s.blocked u = true := hbu
      rw [← hu, hb] at hbu'
      cases hbu'

/-- A thread goes on. -/
theorem Inv.go (hblocked : s.blocked t = false) (hs : s.go t = some s') : Inv s' := by
  have hlinked := h.linked t
  cases hpc : s.pc t with
  | out =>
    rw [ChannelState.go, hpc] at hs
    cases hs
  | locking op =>
    rw [ChannelState.go, hpc] at hs
    exact h.goLock hpc hblocked hs
  | unlocking =>
    rw [ChannelState.go, hpc] at hs
    exact h.goUnlock hpc hblocked hs
  | selecting op =>
    simp only [ChannelState.go, hpc, Option.some.injEq] at hs
    rw [hpc] at hlinked
    rw [← hs]
    exact h.setPc hlinked (by rw [hpc]; rfl) hblocked fun ⟨_, hp⟩ => by cases hp
  | announcing op =>
    simp only [ChannelState.go, hpc, Option.some.injEq] at hs
    rw [hpc] at hlinked
    rw [← hs]
    have hannounced : Inv { s with expectingInterrupt := true } := by
      refine ⟨h.lock, h.lockOk, h.ok, h.notEarly, h.linked, h.awaits, fun _ _ => rfl, h.quiet, ?_,
        h.blocked⟩
      intro u hu
      cases h.handshake u hu with
      | coming hraising hhandled hvalue hwaiters hwaits =>
        exact .coming hraising hhandled hvalue hwaiters hwaits
      | arrived hraising hhandled hvalue hwaiters hb =>
        exact .arrived hraising hhandled hvalue hwaiters hb
    exact hannounced.setPc hlinked (by rw [show _ = _ from hpc]; rfl) hblocked fun _ => rfl
  | commanding op =>
    simp only [ChannelState.go, hpc, Option.some.injEq] at hs
    rw [← hs]
    exact h.issue hpc hblocked
  | sending =>
    simp only [ChannelState.go, hpc, Option.some.injEq] at hs
    rw [hpc] at hlinked
    rw [← hs]
    exact h.setPc hlinked (by rw [hpc]; rfl) hblocked fun ⟨_, hp⟩ => by cases hp
  | waiting op =>
    simp only [ChannelState.go, hpc, Option.some.injEq] at hs
    rw [← hs]
    exact h.goWait hpc hblocked
  | receiving =>
    simp only [ChannelState.go, hpc, Option.some.injEq] at hs
    rw [hpc] at hlinked
    rw [← hs]
    exact h.setPc (.inl hlinked) (by rw [hpc]; rfl) hblocked fun ⟨_, hp⟩ => by cases hp

/-- The interrupt of a command: the semaphore goes up for the thread that waits for it. -/
theorem Inv.completion {rest : List τ} (hraising : s.raising = t :: rest) :
    Inv { s with
      raising := rest
      handled := update s.handled t true }.interruptHandler := by
  obtain ⟨u, hout⟩ : ∃ u, s.outstanding = some u := by
    cases hout : s.outstanding with
    | none =>
      rw [(h.quiet hout).2] at hraising
      cases hraising
    | some u => exact ⟨u, rfl⟩
  have hexpecting : s.expectingInterrupt = true := h.expecting u (.inl hout)
  cases h.handshake u hout with
  | arrived hnone _ _ _ _ =>
    rw [hnone] at hraising
    cases hraising
  | coming hone hhandled hvalue hwaiters hwaits =>
    rw [hone, List.cons.injEq] at hraising
    obtain ⟨rfl, rfl⟩ := hraising
    -- the invariant once the thread, if it slept, has been woken up
    have hrest : ∀ blocked : τ → Bool, blocked u = false →
        (∀ v, blocked v = true → s.blocked v = true) →
        Inv { s with
          expectingInterrupt := true
          raising := []
          handled := update s.handled u true
          completionWait := ⟨(0 + 1) % 2 ^ 32, []⟩
          blocked := blocked } := by
      intro blocked hu hold
      refine ⟨h.lock, h.lockOk, h.ok, h.notEarly, h.linked, h.awaits, fun _ _ => rfl, ?_, ?_,
        fun v hv => h.blocked v (hold v hv)⟩
      · intro hn
        rw [hout] at hn
        cases hn
      · intro v hv
        rw [hout, Option.some.injEq] at hv
        subst hv
        exact .arrived rfl (update_self ..) (by norm_num) rfl hu
    cases hb : s.blocked u with
    | true =>
      simp only [ChannelState.interruptHandler, hexpecting, if_true, Semaphore.up, hwaiters, hvalue,
        List.head?_cons, List.tail_cons, hb]
      refine hrest _ (update_self ..) fun v hv => ?_
      by_cases hvu : v = u
      · rw [hvu]
        exact hb
      · rwa [update_of_ne hvu] at hv
    | false =>
      rw [hb, if_neg Bool.false_ne_true] at hwaiters
      simp only [ChannelState.interruptHandler, hexpecting, if_true, Semaphore.up, hwaiters, hvalue,
        List.head?_nil, List.tail_nil]
      exact hrest _ hb fun _ => id

/-- A step keeps the invariant, unless it is a spurious interrupt after an announcement. -/
theorem step_inv (hs : step s a = some s') (ha : s.expectingInterrupt = true → a ≠ .spurious) :
    Inv s' := by
  unfold step at hs
  by_cases hstop : s.failed = true ∨ s.lock.failed ≠ none
  · rw [if_pos hstop] at hs
    cases hs
  · rw [if_neg hstop] at hs
    cases a with
    | call t op =>
      simp only at hs
      by_cases hpc : s.pc t = .out
      · rw [if_pos hpc, Option.some.injEq] at hs
        rw [← hs]
        have hlinked := h.linked t
        rw [hpc] at hlinked
        have hblocked : s.blocked t = false := by
          rw [Bool.eq_false_iff]
          intro hb
          have hawaits := (h.awaits t).2 (h.blocked t hb)
          rw [hpc] at hawaits
          cases hawaits
        exact h.setPc (.inl hlinked) (by rw [hpc]; rfl) hblocked fun ⟨_, hp⟩ => by cases hp
      · rw [if_neg hpc] at hs
        cases hs
    | go t =>
      simp only at hs
      cases hb : s.blocked t with
      | true =>
        rw [hb, if_pos rfl] at hs
        cases hs
      | false =>
        rw [hb, if_neg Bool.false_ne_true] at hs
        exact h.go hb hs
    | completion =>
      cases hraising : s.raising with
      | nil =>
        rw [hraising] at hs
        cases hs
      | cons t rest =>
        simp only [hraising, Option.some.injEq] at hs
        rw [← hs]
        exact h.completion hraising
    | spurious =>
      have hnot : s.expectingInterrupt = false := Bool.eq_false_iff.2 fun he => ha he rfl
      by_cases hquiet : s.outstanding = none ∧ s.raising = []
      · rw [if_pos hquiet, Option.some.injEq, ChannelState.interruptHandler, hnot,
          if_neg Bool.false_ne_true] at hs
        rw [← hs]
        exact h
      · rw [if_neg hquiet] at hs
        cases hs

end

/-- When no spurious interrupt arrives after the first command has been announced, the value of
`completion_wait` is 0 while no command is outstanding and at most 1 otherwise, and no thread comes
through `sema_down` before the interrupt of its own command has been handled. -/
theorem completions_match (expecting : Bool) (l : List (Action τ)) (s : ChannelState τ)
    (hrun : run step (start expecting) l = some s)
    (hspurious : ∀ n s', run step (start expecting) (l.take n) = some s' →
      s'.expectingInterrupt = true → l[n]? ≠ some .spurious) :
    (s.outstanding = none → s.completionWait.value = 0) ∧ s.completionWait.value ≤ 1 ∧
    s.early = false := by
  have h : Inv s := by
    refine run_invariant_guarded (G := fun s' a => s'.expectingInterrupt = true → a ≠ .spurious)
      (fun _ _ _ hguard hi hs => step_inv hi hs hguard) ?_ (inv_start expecting) hrun
    intro n s' a hs' ha hexp hsp
    exact hspurious n s' hs' hexp (by rw [ha, hsp])
  refine ⟨fun hnone => ?_, ?_, h.notEarly⟩
  · rw [(h.quiet hnone).1]
    rfl
  · cases hout : s.outstanding with
    | none =>
      rw [(h.quiet hout).1]
      exact Nat.zero_le 1
    | some t =>
      cases h.handshake t hout with
      | coming _ _ hvalue _ _ =>
        rw [hvalue]
        exact Nat.zero_le 1
      | arrived _ _ hvalue _ _ => exact hvalue.le

/-- A thread reads a sector, up to its first test of the semaphore. -/
def readCall : List (Action Unit) := .call () .read :: List.replicate 7 (.go ())

/-- A spurious interrupt before the first command does no harm: the thread waits for the interrupt
of its command. -/
theorem completions_match_readCall :
    ∃ s, run step (start false) (.spurious :: (readCall ++ [.completion, .go ()])) = some s ∧
      s.outstanding = none ∧ s.completionWait.value = 0 ∧ s.early = false := by
  refine exists_end (p := fun s => s.outstanding = none) (by decide +kernel) fun s hs hout => ?_
  obtain ⟨hvalue, -, hearly⟩ := completions_match false _ s hs fun n s' hs' hexp hsp => by
    -- the spurious interrupt is the first action, and nothing is expected there
    cases n with
    | zero =>
      cases hs'
      cases hexp
    | succ n =>
      have hmem : (.spurious : Action Unit) ∈ readCall ++ [.completion, .go ()] :=
        List.mem_of_getElem? hsp
      simp [readCall] at hmem
  exact ⟨hout, hvalue hout, hearly⟩

/-- A spurious interrupt after a read is counted, and the next read comes through `sema_down` before
the interrupt of its command has arrived. -/
theorem completion_early :
    ∃ s s', run step (start false) (readCall ++ [.completion, .go (), .spurious]) = some s ∧
      s.outstanding = none ∧ s.completionWait.value = 1 ∧
      run step s (List.replicate 4 (.go ()) ++ readCall) = some s' ∧
      s'.raising = [()] ∧ s'.outstanding = none ∧ s'.early = true := by
  have hany : (run step (start false) (readCall ++ [.completion, .go (), .spurious])).any (fun s =>
      decide (s.outstanding = none ∧ s.completionWait.value = 1) &&
      (run step s (List.replicate 4 (.go ()) ++ readCall)).any fun s' =>
        s'.raising = [()] ∧ s'.outstanding = none ∧ s'.early = true) = true := by
    decide +kernel
  obtain ⟨s, hs, hfacts⟩ := (Option.any_eq_true _ _).1 hany
  rw [Bool.and_eq_true] at hfacts
  obtain ⟨hnone, hvalue⟩ := of_decide_eq_true hfacts.1
  obtain ⟨s', hs', hfacts'⟩ := (Option.any_eq_true _ _).1 hfacts.2
  exact ⟨s, s', hs, hnone, hvalue, hs', of_decide_eq_true hfacts'⟩

end Pintos.Devices.DiskChannel
