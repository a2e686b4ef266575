import Pintos.Threads.Locks

/-!
# Condition variables

One condition variable and its lock, and any number of threads that call `cond_wait`, `cond_signal`
and `cond_broadcast` while they hold the lock. `cond_wait` puts an entry with a semaphore of its own
at the end of the queue, releases the lock, waits on that semaphore and acquires the lock again;
between these steps any other thread may run. `cond_signal` takes the first entry out of the queue
and makes its semaphore go up, in two steps, and `cond_broadcast` does so until the queue is empty.

What happens is recorded in a log. Each entry has a number, in the order in which the entries were
made, and so has each call of `cond_signal` and `cond_broadcast`.
-/

set_option autoImplicit false

namespace Pintos.Threads.Conditions

open Function Lib.Runs Synch Locks

/-- The two calls that wake threads up. -/
inductive Kind where
  | signal
  | broadcast
  deriving DecidableEq

/-- Where a thread is in the code of the condition variable. -/
inductive Pc (τ : Type) where
  | out
  /-- In `cond_wait`, before the entry is made. -/
  | waitEnqueue
  /-- In `cond_wait`, at or in `lock_release`, with the entry `k`. -/
  | waitRelease (k : Nat)
  /-- In `cond_wait`, in the loop of `sema_down`. -/
  | waitDown (k : Nat)
  /-- In `cond_wait`, at or in `lock_acquire`. -/
  | waitAcquire (k : Nat)
  /-- In `cond_broadcast`, before the test of its loop, in the call `c`. -/
  | loop (c : Nat)
  /-- At the start of `cond_signal`. -/
  | test (c : Nat) (kind : Kind)
  /-- In `cond_signal`, before `list_pop_front`. -/
  | pop (c : Nat) (kind : Kind)
  /-- In `cond_signal`, before `sema_up` on the semaphore of the entry `k` of the thread `t`. -/
  | up (c : Nat) (kind : Kind) (t : τ) (k : Nat)
  deriving DecidableEq

/-- What is recorded. -/
inductive Event (τ : Type) where
  /-- The thread `t` has made the entry `k`. -/
  | enqueued (t : τ) (k : Nat)
  /-- The thread `u` calls `cond_signal` or `cond_broadcast`, with these entries in the queue. -/
  | called (c : Nat) (kind : Kind) (u : τ) (queue : List (τ × Nat))
  /-- The call `c` has taken the entry `k` of the thread `t` out of the queue. -/
  | removed (c : Nat) (t : τ) (k : Nat)
  /-- The call `c` has made the semaphore of the entry `k` of the thread `t` go up. -/
  | upped (c : Nat) (t : τ) (k : Nat)
  /-- The call `c` returns. -/
  | finished (c : Nat)
  /-- The thread `t` returns from the `cond_wait` that made the entry `k`. -/
  | returned (t : τ) (k : Nat)
  deriving DecidableEq

variable {τ : Type} [DecidableEq τ]

structure CondState (τ : Type) where
  lock : LockState τ
  /-- The threads and the numbers of the entries in `waiters`. -/
  waiters : List (τ × Nat)
  /-- The semaphores of the entries. -/
  sema : Nat → Semaphore τ
  /-- The threads that sleep on the semaphore of their entry. -/
  blocked : τ → Bool
  pc : τ → Pc τ
  /-- The number of the next entry. -/
  entries : Nat
  /-- The number of the next call. -/
  calls : Nat
  log : List (Event τ)
  /-- An assertion of `cond_wait` or `cond_signal`, of `list_pop_front` or of `thread_unblock` has
  failed. -/
  failed : Bool

/-- What a thread does: call or go on in a function of the lock, call a function of the condition
variable, or go on in one. -/
inductive Action where
  | lock (m : LockMove)
  | wait
  | call (kind : Kind)
  | go
  deriving DecidableEq

namespace CondState

def setPc (s : CondState τ) (t : τ) (pc : Pc τ) : CondState τ :=
  { s with pc := update s.pc t pc }

def emit (s : CondState τ) (e : Event τ) : CondState τ := { s with log := s.log ++ [e] }

/-- `lock_held_by_current_thread`. -/
def heldBy (s : CondState τ) (t : τ) : Bool := s.lock.lock.holder = some t

/-- The entry of a thread: `sema_init` and `list_push_back`. -/
def enqueue (s : CondState τ) (t : τ) : CondState τ :=
  { s with
    waiters := s.waiters ++ [(t, s.entries)]
    sema := update s.sema s.entries (semaInit 0)
    entries := s.entries + 1
    log := s.log ++ [Event.enqueued t s.entries] }.setPc t (.waitRelease s.entries)

/-- The next step of `lock_release` in `cond_wait`. -/
def goRelease (s : CondState τ) (t : τ) (k : Nat) : Option (CondState τ) :=
  (lockStep s.lock (t, if s.lock.pc t = .holding then .release else .go)).map fun l =>
    let s' := { s with lock := l }
    if l.pc t = .out then s'.setPc t (.waitDown k) else s'

/-- A pass through the loop of `sema_down` on the semaphore of the entry. -/
def goDown (s : CondState τ) (t : τ) (k : Nat) : CondState τ :=
  match (s.sema k).down t with
  | (true, sema) =>
    { s with sema := update s.sema k sema }.setPc t (.waitAcquire k)
  | (false, sema) =>
    { s with
      sema := update s.sema k sema
      blocked := update s.blocked t true }

/-- The next step of `lock_acquire` in `cond_wait`. -/
def goAcquire (s : CondState τ) (t : τ) (k : Nat) : Option (CondState τ) :=
  (lockStep s.lock (t, if s.lock.pc t = .out then .acquire else .go)).map fun l =>
    let s' := { s with lock := l }
    if l.pc t = .holding then (s'.emit (.returned t k)).setPc t .out else s'

/-- `cond_signal` has nothing more to do: it returns, to the loop of `cond_broadcast` if it was
called there. -/
def signalled (s : CondState τ) (t : τ) (c : Nat) : Kind → CondState τ
  | .signal => (s.emit (.finished c)).setPc t .out
  | .broadcast => s.setPc t (.loop c)

/-- `sema_up` on the semaphore of an entry. -/
def goUp (s : CondState τ) (t : τ) (c : Nat) (kind : Kind) (u : τ) (k : Nat) : CondState τ :=
  match (s.sema k).up with
  | (none, sema) =>
    ({ s with sema := update s.sema k sema }.emit (.upped c u k)).signalled t c kind
  | (some v, sema) =>
    if s.blocked v then
      ({ s with
        sema := update s.sema k sema
        blocked := update s.blocked v false }.emit (.upped c u k)).signalled t c kind
    else { s with failed := true }

/-- The next step of the function that a thread is in. -/
def go (s : CondState τ) (t : τ) : Option (CondState τ) :=
  match s.pc t with
  | .out => none
  | .waitEnqueue => some (s.enqueue t)
  | .waitRelease k => s.goRelease t k
  | .waitDown k => some (s.goDown t k)
  | .waitAcquire k => s.goAcquire t k
  | .loop c =>
    match s.waiters with
    | [] => some ((s.emit (.finished c)).setPc t .out)
    | _ :: _ => some (s.setPc t (.test c .broadcast))
  | .test c kind =>
    if s.heldBy t then
      match s.waiters with
      | [] => some (s.signalled t c kind)
      | _ :: _ => some (s.setPc t (.pop c kind))
    else some { s with failed := true }
  | .pop c kind =>
    match s.waiters with
    | [] => some { s with failed := true }
    | (u, k) :: rest =>
      some (({ s with waiters := rest }.emit (.removed c u k)).setPc t (.up c kind u k))
  | .up c kind u k => some (s.goUp t c kind u k)

/-- The entry of `cond_wait`, with its assertion. -/
def callWait (s : CondState τ) (t : τ) : CondState τ :=
  if s.heldBy t then s.setPc t .waitEnqueue else { s with failed := true }

/-- The entry of `cond_signal` or `cond_broadcast`. -/
def call (s : CondState τ) (t : τ) (kind : Kind) : CondState τ :=
  { s with
    calls := s.calls + 1
    log := s.log ++ [Event.called s.calls kind t s.waiters] }.setPc t
      (match kind with
      | .signal => .test s.calls .signal
      | .broadcast => .loop s.calls)

end CondState

/-- A step of a thread. The functions of the condition variable are called with the lock. -/
def step (s : CondState τ) : τ × Action → Option (CondState τ)
  | (t, a) =>
    if s.failed = true ∨ s.lock.failed ≠ none ∨ s.blocked t = true then none
    else
      match a with
      | .lock m =>
        if s.pc t = .out then (lockStep s.lock (t, m)).map fun l => { s with lock := l } else none
      | .wait => if s.pc t = .out ∧ s.lock.pc t = .holding then some (s.callWait t) else none
      | .call kind =>
        if s.pc t = .out ∧ s.lock.pc t = .holding then some (s.call t kind) else none
      | .go => s.go t

/-- After `lock_init` and `cond_init`. -/
def start : CondState τ where
  lock := lockStart
  waiters := []
  sema := fun _ => semaInit 0
  blocked := fun _ => false
  pc := fun _ => .out
  entries := 0
  calls := 0
  log := []
  failed := false

end Pintos.Threads.Conditions
