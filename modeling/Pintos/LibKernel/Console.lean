import Pintos.Threads.Locks

/-!
# The console lock

`lib/kernel/console.c` makes the console lock recursive with a counter. Threads call
`acquire_console`, write characters with `putchar_have_lock` and call `release_console`, in nested
pairs; this is all that `printf`, `puts`, `putbuf` and `putchar` do to the console. Each thread may
be preempted between any two steps: between the test of the holder and the change of the counter,
inside `lock_acquire` and `lock_release`, and between the output of a character to the serial port
and to the display, where it may also write to the console itself, in a nested call. The console
lock is in use and no panic is under way (`use_console_lock`); interrupt handlers write without the
lock and are left out, and so is the number of characters, which nothing reads.
-/

set_option autoImplicit false

namespace Pintos.LibKernel.Console

open Function Lib.Runs Threads.Locks

variable {τ : Type} [DecidableEq τ] {p : LockPc} {n : Nat}

/-- Where a thread is in the code of the console. -/
inductive Pc where
  /-- Outside, or between two operations of a call. -/
  | out
  /-- In `acquire_console`: the lock is held by the thread. -/
  | increment
  /-- In `acquire_console`: at or in `lock_acquire`. -/
  | acquire
  /-- In `release_console`: the depth is positive. -/
  | decrement
  /-- In `release_console`: at or in `lock_release`. -/
  | release
  deriving DecidableEq

/-- What happens on the console, in order. -/
inductive Event (τ : Type) where
  /-- The `sema_down` of an outermost acquire has succeeded. -/
  | acquired (t : τ)
  /-- The `sema_up` of an outermost release has been made. -/
  | released (t : τ)
  | serialPutc (t : τ) (c : UInt8)
  | vgaPutc (t : τ) (c : UInt8)
  deriving DecidableEq

def Event.thread : Event τ → τ
  | .acquired t | .released t | .serialPutc t _ | .vgaPutc t _ => t

structure ConsoleState (τ : Type) where
  /-- `console_lock` and the places of the threads in its code. -/
  consoleLock : LockState τ
  /-- `console_lock_depth`. -/
  depth : Nat
  pc : τ → Pc
  /-- The nested acquires that a thread has completed and not released. -/
  nest : τ → Nat
  /-- The characters that a thread has yet to give to `vga_putc`, the innermost first, each with the
  nested acquires that it was written under. -/
  pending : τ → List (UInt8 × Nat)
  log : List (Event τ)
  /-- The assertion of `putchar_have_lock` has failed. -/
  failed : Bool

/-- What a thread does: start an operation, or go on. -/
inductive Action where
  | acquire
  | putchar (c : UInt8)
  | release
  | go

namespace ConsoleState

def setPc (s : ConsoleState τ) (t : τ) (pc : Pc) : ConsoleState τ :=
  { s with pc := update s.pc t pc }

/-- The number of nested acquires changes, and the operation ends. -/
def setNest (s : ConsoleState τ) (t : τ) (n : Nat) : ConsoleState τ :=
  { s with
    nest := update s.nest t n
    pc := update s.pc t .out }

def setPending (s : ConsoleState τ) (t : τ) (cs : List (UInt8 × Nat)) : ConsoleState τ :=
  { s with pending := update s.pending t cs }

/-- The nested acquires under which the innermost pending character was written. -/
def base (s : ConsoleState τ) (t : τ) : Nat := (s.pending t).head?.elim 0 Prod.snd

def emit (s : ConsoleState τ) (e : Event τ) : ConsoleState τ := { s with log := s.log ++ [e] }

/-- `lock_held_by_current_thread`. -/
def heldBy (s : ConsoleState τ) (t : τ) : Bool := s.consoleLock.lock.holder = some t

/-- The next step of `lock_acquire` in `acquire_console`. -/
def goAcquire (s : ConsoleState τ) (t : τ) : Option (ConsoleState τ) :=
  (lockStep s.consoleLock (t, if s.consoleLock.pc t = .out then .acquire else .go)).map fun l =>
    let s' := { s with consoleLock := l }
    if l.pc t = .acquired then s'.emit (.acquired t)
    else if l.pc t = .holding then s'.setNest t 1
    else s'

/-- The next step of `lock_release` in `release_console`. -/
def goRelease (s : ConsoleState τ) (t : τ) : Option (ConsoleState τ) :=
  (lockStep s.consoleLock (t, if s.consoleLock.pc t = .holding then .release else .go)).map fun l =>
    let s' := { s with consoleLock := l }
    if l.pc t = .out then (s'.emit (.released t)).setNest t 0 else s'

/-- The next step of the operation that a thread is in. -/
def go (s : ConsoleState τ) (t : τ) : Option (ConsoleState τ) :=
  match s.pc t with
  | .out => none
  | .increment => some ({ s with depth := s.depth + 1 }.setNest t (s.nest t + 1))
  | .decrement => some ({ s with depth := s.depth - 1 }.setNest t (s.nest t - 1))
  | .acquire => s.goAcquire t
  | .release => s.goRelease t

/-- The start of an operation, or the `vga_putc` of a character when the calls nested in its
`putchar_have_lock` have released what they acquired. -/
def enter (s : ConsoleState τ) (t : τ) : Action → Option (ConsoleState τ)
  | .acquire => some (s.setPc t (if s.heldBy t then .increment else .acquire))
  | .release =>
    if s.base t < s.nest t then some (s.setPc t (if 0 < s.depth then .decrement else .release))
    else none
  | .putchar c =>
    if s.base t < s.nest t then
      if s.heldBy t then
        some ((s.emit (.serialPutc t c)).setPending t ((c, s.nest t) :: s.pending t))
      else some { s with failed := true }
    else none
  | .go =>
    match s.pending t with
    | (c, n) :: cs => if s.nest t = n then some ((s.emit (.vgaPutc t c)).setPending t cs) else none
    | [] => none

end ConsoleState

/-- A step of a thread. Releases and characters come after an acquire of the same call. -/
def step (s : ConsoleState τ) : τ × Action → Option (ConsoleState τ)
  | (t, a) =>
    if s.failed = true ∨ s.consoleLock.failed ≠ none then none
    else if s.pc t = .out then s.enter t a
    else
      match a with
      | .go => s.go t
      | _ => none

/-- After `console_init`. -/
def start : ConsoleState τ := ⟨lockStart, 0, fun _ => .out, fun _ => 0, fun _ => [], [], false⟩

/-! ## The invariant -/

/-- The place of a thread in the code of the lock and its nested acquires, by its place in the code
of the console. -/
def Linked (p : LockPc) (n : Nat) : Pc → Prop
  | .out => n = 0 ∧ p = .out ∨ 0 < n ∧ p = .holding
  | .increment => 0 < n ∧ p = .holding
  | .decrement => 1 < n ∧ p = .holding
  | .acquire => n = 0 ∧ (p = .out ∨ p = .acquiring ∨ p = .acquired)
  | .release => n = 1 ∧ (p = .holding ∨ p = .clearing ∨ p = .releasing)

variable {pc : Pc}

/-- A thread that has acquired the console has the lock. -/
theorem Linked.region (h : Linked p n pc) (hn : 0 < n) :
    p.InRegion = true := by
  cases pc with
  | out =>
    rw [(h.resolve_left fun h0 => by omega).2]
    rfl
  | acquire =>
    rw [h.1] at hn
    cases hn
  | release => rcases h with ⟨-, rfl | rfl | rfl⟩ <;> rfl
  | increment => rw [h.2]; rfl
  | decrement => rw [h.2]; rfl

/-- `holder` names a thread only while it has acquired the console. -/
theorem Linked.nest_pos (h : Linked p n pc) (howns : p.Owns = true) : 0 < n := by
  cases pc with
  | out =>
    rcases h with ⟨-, rfl⟩ | ⟨hn, -⟩
    · cases howns
    · exact hn
  | acquire => rcases h with ⟨-, rfl | rfl | rfl⟩ <;> cases howns
  | release =>
    rw [h.1]
    exact one_pos
  | decrement => exact lt_trans one_pos h.1
  | increment => exact h.1

/-- Nested acquires are made with the lock in hand. -/
theorem Linked.nest_le_one (h : Linked p n pc) (hp : p ≠ .holding) : n ≤ 1 := by
  cases pc with
  | out => exact (h.resolve_right fun h1 => hp h1.2).1.le.trans (Nat.zero_le 1)
  | acquire => exact h.1.le.trans (Nat.zero_le 1)
  | release => exact h.1.le
  | increment => exact absurd h.2 hp
  | decrement => exact absurd h.2 hp

/-- From an outermost acquire on, up to the release, only one thread does something. -/
def Contiguous (l : LockState τ) (log : List (Event τ)) : Prop :=
  ∀ l₁ t l₂, log = l₁ ++ .acquired t :: l₂ → .released t ∉ l₂ →
    (l.pc t).InRegion = true ∧ ∀ e ∈ l₂, e.thread = t

structure Inv (s : ConsoleState τ) : Prop where
  lock : LockInv s.consoleLock
  lockOk : s.consoleLock.failed = none
  ok : s.failed = false
  linked : ∀ t, Linked (s.consoleLock.pc t) (s.nest t) (s.pc t)
  pending : ∀ t, ∀ x ∈ s.pending t, 0 < x.2
  depth : ∀ t, (s.consoleLock.pc t).InRegion = true → s.depth = s.nest t - 1
  free : (∀ t, (s.consoleLock.pc t).InRegion = false) → s.depth = 0
  log : Contiguous s.consoleLock s.log

variable {s s' : ConsoleState τ} {t : τ} {a : Action} {l l' : LockState τ} {log : List (Event τ)}

omit [DecidableEq τ] in
theorem inv_start : Inv (start : ConsoleState τ) where
  lock := inv_lockStart
  lockOk := rfl
  ok := rfl
  linked := fun _ => .inl ⟨rfl, rfl⟩
  pending := fun _ _ hx => absurd hx List.not_mem_nil
  depth := fun t h => by cases h
  free := fun _ => rfl
  log := fun l₁ t l₂ h => by simp [start] at h

omit [DecidableEq τ] in
/-- One more event, of a thread that has the lock. -/
theorem Contiguous.emit {e : Event τ} (h : Contiguous l log) (hl : LockInv l)
    (hregion : (l.pc e.thread).InRegion = true) (hne : ∀ t, e ≠ .acquired t) :
    Contiguous l (log ++ [e]) := by
  intro l₁ t l₂ hlog hopen
  rcases append_singleton_cases hlog with ⟨-, -, he⟩ | ⟨l₃, rfl, hlog'⟩
  · exact absurd he (hne t)
  · obtain ⟨ht, hevents⟩ := h l₁ t l₃ hlog' fun hm => hopen (List.mem_append_left _ hm)
    refine ⟨ht, fun x hx => ?_⟩
    rcases List.mem_append.1 hx with hx | hx
    · exact hevents x hx
    · rw [List.mem_singleton.1 hx]
      exact hl.exclusive _ _ hregion ht

omit [DecidableEq τ] in
/-- The threads that have the lock are the same as before. -/
theorem Contiguous.congr (h : Contiguous l log)
    (hregion : ∀ t, (l'.pc t).InRegion = (l.pc t).InRegion) : Contiguous l' log := by
  intro l₁ t l₂ hlog hopen
  rw [hregion]
  exact h l₁ t l₂ hlog hopen

omit [DecidableEq τ] in
/-- The log when a thread takes the free lock. -/
theorem Contiguous.acquired (h : Contiguous l log) (hfree : ∀ u, (l.pc u).InRegion = false)
    (ht : (l'.pc t).InRegion = true) :
    Contiguous l' (log ++ [.acquired t]) := by
  intro l₁ u l₂ hlog hopen
  rcases append_singleton_cases hlog with ⟨rfl, -, he⟩ | ⟨l₃, rfl, hlog'⟩
  · cases he
    exact ⟨ht, fun e he => absurd he List.not_mem_nil⟩
  · -- no acquire was open, as no thread had the lock
    have hu := (h l₁ u l₃ hlog' fun hm => hopen (List.mem_append_left _ hm)).1
    rw [hfree] at hu
    cases hu

omit [DecidableEq τ] in
/-- The log when a thread gives the lock back. -/
theorem Contiguous.released (h : Contiguous l log) (hl : LockInv l)
    (ht : (l.pc t).InRegion = true) :
    Contiguous l' (log ++ [.released t]) := by
  intro l₁ u l₂ hlog hopen
  rcases append_singleton_cases hlog with ⟨-, -, he⟩ | ⟨l₃, rfl, hlog'⟩
  · cases he
  · have hu := (h l₁ u l₃ hlog' fun hm => hopen (List.mem_append_left _ hm)).1
    rw [hl.exclusive t u ht hu] at hopen
    exact absurd (List.mem_append_right l₃ (List.mem_singleton_self _)) hopen

/-! ## Steps -/

/-- A thread comes to another place, with the lock as it is. -/
theorem Inv.setPc (h : Inv s) {p : Pc} (hp : Linked (s.consoleLock.pc t) (s.nest t) p) :
    Inv (s.setPc t p) := by
  refine ⟨h.lock, h.lockOk, h.ok, ?_, h.pending, h.depth, h.free, h.log⟩
  intro u
  by_cases hu : u = t
  · subst hu
    simpa [ConsoleState.setPc] using hp
  · simpa [ConsoleState.setPc, hu] using h.linked u

omit [DecidableEq τ] in
theorem Inv.emit (h : Inv s) {e : Event τ} (hregion : (s.consoleLock.pc e.thread).InRegion = true)
    (hne : ∀ t, e ≠ .acquired t) : Inv (s.emit e) :=
  ⟨h.lock, h.lockOk, h.ok, h.linked, h.pending, h.depth, h.free, h.log.emit h.lock hregion hne⟩

/-- Other characters are pending, written under nested acquires. -/
theorem Inv.setPending (h : Inv s) {cs : List (UInt8 × Nat)} (hcs : ∀ x ∈ cs, 0 < x.2) :
    Inv (s.setPending t cs) := by
  refine ⟨h.lock, h.lockOk, h.ok, h.linked, ?_, h.depth, h.free, h.log⟩
  intro u
  by_cases hu : u = t
  · subst hu
    simpa [ConsoleState.setPending] using hcs
  · simpa [ConsoleState.setPending, hu] using h.pending u

/-- The counter follows the nested acquires of the thread that has the lock. -/
theorem Inv.setNest (h : Inv s) (hpc : s.consoleLock.pc t = .holding) (hn : 0 < n) :
    Inv ({ s with depth := n - 1 }.setNest t n) := by
  have hregion : (s.consoleLock.pc t).InRegion = true := by rw [hpc]; rfl
  refine ⟨h.lock, h.lockOk, h.ok, ?_, h.pending, ?_, ?_, h.log⟩
  · intro u
    by_cases hu : u = t
    · subst hu
      simpa [ConsoleState.setNest, Linked] using .inr ⟨hn, hpc⟩
    · simpa [ConsoleState.setNest, hu] using h.linked u
  · intro u hu
    have hut : u = t := h.lock.exclusive u t hu hregion
    subst hut
    simp [ConsoleState.setNest]
  · intro hfree
    exact absurd (hfree t) (by simp [ConsoleState.setNest, hregion])

section

variable (h : Inv s) (hl : LockInv l) (hok : l.failed = none)
  (hothers : ∀ u, u ≠ t → l.pc u = s.consoleLock.pc u)
  (hregion : (l.pc t).InRegion = (s.consoleLock.pc t).InRegion)
include h hl hok hothers hregion

/-- A step of the lock that leaves it in the same hands. -/
theorem Inv.lockMove {p : Pc} (hlinked : Linked (l.pc t) n p)
    (hdepth : (l.pc t).InRegion = true → s.depth = n - 1) :
    Inv { s with
      consoleLock := l
      nest := update s.nest t n
      pc := update s.pc t p } := by
  have hsame : ∀ u, (l.pc u).InRegion = (s.consoleLock.pc u).InRegion := by
    intro u
    by_cases hu : u = t
    · rw [hu, hregion]
    · rw [hothers u hu]
  refine ⟨hl, hok, h.ok, ?_, h.pending, ?_, ?_, h.log.congr hsame⟩
  · intro u
    by_cases hu : u = t
    · subst hu
      simpa using hlinked
    · simpa [hu, hothers u hu] using h.linked u
  · intro u hu
    by_cases hut : u = t
    · subst hut
      simpa using hdepth hu
    · dsimp only at hu ⊢
      rw [hsame] at hu
      rw [update_of_ne hut]
      exact h.depth u hu
  · intro hfree
    exact h.free fun u => (hsame u).symm.trans (hfree u)

/-- A step of the lock in the middle of an operation. -/
theorem Inv.lockStay (hlinked : Linked (l.pc t) (s.nest t) (s.pc t)) :
    Inv { s with consoleLock := l } := by
  have hmove := h.lockMove hl hok hothers hregion hlinked
    fun hr => h.depth t (hregion.symm.trans hr)
  rwa [update_eq_self, update_eq_self] at hmove

end

/-- A step of `lock_acquire`. -/
theorem Inv.goAcquire (h : Inv s) (hpc : s.pc t = .acquire) (hs : s.goAcquire t = some s') :
    Inv s' := by
  obtain ⟨l, hlock, rfl⟩ := Option.map_eq_some_iff.1 hs
  have hlinked := h.linked t
  rw [hpc] at hlinked
  obtain ⟨hnest, hplace⟩ := hlinked
  obtain ⟨hl, hok, hothers, hcases⟩ := lockStep_inAcquire h.lock h.lockOk hplace hlock
  rcases hcases with ⟨hold, hself⟩ | ⟨hfree, hself⟩ | ⟨hold, hself⟩
  · simp only [hself, reduceCtorEq, if_false]
    refine h.lockStay (t := t) hl hok hothers (by rw [hself, hold]; rfl) ?_
    rw [hself, hpc]
    exact ⟨hnest, .inr (.inl rfl)⟩
  · -- the lock is taken, and nobody had it
    simp only [hself, if_true]
    have hregion : (l.pc t).InRegion = true := by rw [hself]; rfl
    refine ⟨hl, hok, h.ok, ?_, h.pending, ?_, ?_, h.log.acquired hfree hregion⟩
    · intro u
      by_cases hu : u = t
      · subst hu
        simp only [ConsoleState.emit, hself, hpc]
        exact ⟨hnest, .inr (.inr rfl)⟩
      · simp only [ConsoleState.emit, hothers u hu]
        exact h.linked u
    · intro u hu
      have hut : u = t := hl.exclusive u t hu hregion
      rw [hut]
      simp only [ConsoleState.emit, hnest]
      exact h.free hfree
    · intro hnone
      exact absurd (hnone t) (by simp [ConsoleState.emit, hregion])
  · -- `holder` is written, and the acquire is complete
    simp only [hself, reduceCtorEq, if_false, if_true]
    have hregion : (s.consoleLock.pc t).InRegion = true := by rw [hold]; rfl
    refine h.lockMove hl hok hothers (by rw [hself, hold]; rfl) (.inr ⟨one_pos, hself⟩) ?_
    intro _
    rw [h.depth t hregion, hnest]

/-- A step of `lock_release`. Its assertion holds. -/
theorem Inv.goRelease (h : Inv s) (hpc : s.pc t = .release) (hs : s.goRelease t = some s') :
    Inv s' := by
  obtain ⟨l, hlock, rfl⟩ := Option.map_eq_some_iff.1 hs
  have hlinked := h.linked t
  rw [hpc] at hlinked
  obtain ⟨hnest, hplace⟩ := hlinked
  have hregion : (s.consoleLock.pc t).InRegion = true := by
    rcases hplace with hp | hp | hp <;> rw [hp] <;> rfl
  obtain ⟨hl, hok, hothers, hself | hself | hself⟩ :=
    lockStep_inRelease h.lock h.lockOk hplace hlock
  · simp only [hself, reduceCtorEq, if_false]
    refine h.lockStay (t := t) hl hok hothers (by rw [hself, hregion]; rfl) ?_
    rw [hself, hpc]
    exact ⟨hnest, .inr (.inl rfl)⟩
  · simp only [hself, reduceCtorEq, if_false]
    refine h.lockStay (t := t) hl hok hothers (by rw [hself, hregion]; rfl) ?_
    rw [hself, hpc]
    exact ⟨hnest, .inr (.inr rfl)⟩
  · -- the `sema_up`: the lock is free, and the depth is 0
    simp only [hself, if_true]
    have hdepth : s.depth = 0 := by rw [h.depth t hregion, hnest]
    have hnone : ∀ u, (l.pc u).InRegion = false := by
      intro u
      by_cases hu : u = t
      · rw [hu, hself]
        rfl
      · rw [hothers u hu, Bool.eq_false_iff]
        exact fun hr => hu (h.lock.exclusive u t hr hregion)
    refine ⟨hl, hok, h.ok, ?_, h.pending, ?_, fun _ => hdepth, h.log.released h.lock hregion⟩
    · intro u
      by_cases hu : u = t
      · subst hu
        simpa [ConsoleState.setNest, ConsoleState.emit, Linked] using hself
      · simpa [ConsoleState.setNest, ConsoleState.emit, hu, hothers u hu] using h.linked u
    · intro u hu
      exact absurd (hnone u) (by simpa [ConsoleState.setNest, ConsoleState.emit] using hu)

/-- A thread that is in an operation goes on. -/
theorem Inv.go (h : Inv s) (hs : s.go t = some s') : Inv s' := by
  have hlinked := h.linked t
  cases hpc : s.pc t with
  | out =>
    rw [ConsoleState.go, hpc] at hs
    cases hs
  | acquire =>
    rw [ConsoleState.go, hpc] at hs
    exact h.goAcquire hpc hs
  | release =>
    rw [ConsoleState.go, hpc] at hs
    exact h.goRelease hpc hs
  | increment =>
    rw [hpc] at hlinked
    have hregion : (s.consoleLock.pc t).InRegion = true := by rw [hlinked.2]; rfl
    have hdepth : s.depth + 1 = s.nest t + 1 - 1 := by
      rw [h.depth t hregion]
      have hpos := hlinked.1
      omega
    simp only [ConsoleState.go, hpc, Option.some.injEq] at hs
    rw [← hs, hdepth]
    exact h.setNest hlinked.2 (Nat.succ_pos _)
  | decrement =>
    rw [hpc] at hlinked
    have hregion : (s.consoleLock.pc t).InRegion = true := by rw [hlinked.2]; rfl
    simp only [ConsoleState.go, hpc, Option.some.injEq] at hs
    rw [← hs, h.depth t hregion]
    exact h.setNest hlinked.2 (Nat.sub_pos_of_lt hlinked.1)

/-- A thread starts an operation, or sends a character to the display. -/
theorem Inv.enter (h : Inv s) (hpc : s.pc t = .out) (hs : s.enter t a = some s') : Inv s' := by
  have hlinked := h.linked t
  rw [hpc] at hlinked
  have hheld : s.heldBy t = true ↔ 0 < s.nest t := by
    rw [ConsoleState.heldBy, decide_eq_true_eq, h.lock.holder]
    rcases hlinked with ⟨hn, hp⟩ | ⟨hn, hp⟩ <;> rw [hp] <;> simp [LockPc.Owns, hn]
  have hholding : 0 < s.nest t → s.consoleLock.pc t = .holding := fun hn =>
    (hlinked.resolve_left fun h0 => by omega).2
  have hemit : ∀ e : Event τ, e.thread = t → (∀ u, e ≠ .acquired u) → 0 < s.nest t →
      Inv (s.emit e) := by
    intro e he hne hn
    refine h.emit ?_ hne
    rw [he, hholding hn]
    rfl
  cases a with
  | go =>
    simp only [ConsoleState.enter] at hs
    cases hcs : s.pending t with
    | nil =>
      rw [hcs] at hs
      cases hs
    | cons x cs =>
      obtain ⟨c, n⟩ := x
      have hpos := h.pending t
      rw [hcs] at hpos
      obtain ⟨hx, hrest⟩ := List.forall_mem_cons.1 hpos
      simp only [hcs] at hs
      by_cases hn : s.nest t = n
      · rw [if_pos hn, Option.some.injEq] at hs
        rw [← hs]
        exact (hemit (.vgaPutc t c) rfl (fun _ he => by cases he) (hn ▸ hx)).setPending hrest
      · rw [if_neg hn] at hs
        cases hs
  | acquire =>
    simp only [ConsoleState.enter, Option.some.injEq] at hs
    rw [← hs]
    by_cases hh : s.heldBy t = true
    · rw [if_pos hh]
      exact h.setPc ⟨hheld.1 hh, hholding (hheld.1 hh)⟩
    · rw [if_neg hh]
      rcases hlinked with ⟨hn, hp⟩ | ⟨hn, -⟩
      · exact h.setPc ⟨hn, .inl hp⟩
      · exact absurd (hheld.2 hn) hh
  | release =>
    simp only [ConsoleState.enter] at hs
    by_cases hlt : s.base t < s.nest t
    · rw [if_pos hlt, Option.some.injEq] at hs
      rw [← hs]
      have hn : 0 < s.nest t := Nat.zero_lt_of_lt hlt
      -- the depth is that of this thread, so it tells whether this is the outermost release
      have hdepth : s.depth = s.nest t - 1 := h.depth t (by rw [hholding hn]; rfl)
      by_cases hd : 0 < s.depth
      · rw [if_pos hd]
        exact h.setPc ⟨by omega, hholding hn⟩
      · rw [if_neg hd]
        exact h.setPc ⟨by omega, .inl (hholding hn)⟩
    · rw [if_neg hlt] at hs
      cases hs
  | putchar c =>
    simp only [ConsoleState.enter] at hs
    by_cases hlt : s.base t < s.nest t
    · have hn : 0 < s.nest t := Nat.zero_lt_of_lt hlt
      rw [if_pos hlt, if_pos (hheld.2 hn), Option.some.injEq] at hs
      rw [← hs]
      exact (hemit (.serialPutc t c) rfl (fun _ he => by cases he) hn).setPending
        (List.forall_mem_cons.2 ⟨hn, h.pending t⟩)
    · rw [if_neg hlt] at hs
      cases hs

theorem step_inv {a : τ × Action} (h : Inv s) (hs : step s a = some s') : Inv s' := by
  obtain ⟨t, a⟩ := a
  simp only [step] at hs
  by_cases hstop : s.failed = true ∨ s.consoleLock.failed ≠ none
  · rw [if_pos hstop] at hs
    cases hs
  · rw [if_neg hstop] at hs
    by_cases hpc : s.pc t = .out
    · rw [if_pos hpc] at hs
      exact h.enter hpc hs
    · rw [if_neg hpc] at hs
      cases a with
      | go => exact h.go hs
      | acquire => cases hs
      | release => cases hs
      | putchar c => cases hs

/-- The console under preemption: the depth counts the nested acquires of the holder beyond the
first and is 0 when there is none; the lock is released by the outermost release and by no other; no
assertion fails, neither of the lock nor of `putchar_have_lock`; and from an outermost acquire of a
thread on, everything on the console is done by that thread until it releases the lock. -/
theorem console_contiguous (l : List (τ × Action)) (s : ConsoleState τ)
    (hrun : run step start l = some s) :
    (∀ t, s.consoleLock.lock.holder = some t → s.depth + 1 = s.nest t) ∧
    (s.consoleLock.lock.holder = none → s.depth = 0) ∧
    (∀ t, s.pc t = .release → s.nest t = 1) ∧
    (∀ t, s.pc t = .decrement → 1 < s.nest t) ∧
    (∀ t, 0 < s.nest t → (s.consoleLock.pc t).InRegion = true) ∧
    s.consoleLock.failed = none ∧ s.failed = false ∧
    ∀ l₁ t l₂, s.log = l₁ ++ .acquired t :: l₂ → .released t ∉ l₂ → ∀ e ∈ l₂, e.thread = t := by
  have h : Inv s :=
    run_invariant (P := fun _ => True) (fun _ _ _ _ hi hs => step_inv hi hs) (fun _ _ => trivial)
      inv_start hrun
  refine ⟨?_, ?_, ?_, ?_, fun t => (h.linked t).region, h.lockOk, h.ok,
    fun l₁ t l₂ hlog hopen => (h.log l₁ t l₂ hlog hopen).2⟩
  · intro t ht
    have hpos := (h.linked t).nest_pos ((h.lock.holder t).1 ht)
    have hdepth := h.depth t ((h.linked t).region hpos)
    omega
  · intro hnone
    by_cases hfree : ∀ t, (s.consoleLock.pc t).InRegion = false
    · exact h.free hfree
    · -- the lock is taken and `holder` is null: just before it is written or after it is reset
      rw [not_forall] at hfree
      obtain ⟨t, ht⟩ := hfree
      have hdepth := h.depth t (by simpa using ht)
      have hle : s.nest t ≤ 1 := by
        refine (h.linked t).nest_le_one fun hp => ?_
        have hh := (h.lock.holder t).2 (by rw [hp]; rfl)
        rw [hnone] at hh
        cases hh
      omega
  · intro t hpc
    have hlinked := h.linked t
    rw [hpc] at hlinked
    exact hlinked.1
  · intro t hpc
    have hlinked := h.linked t
    rw [hpc] at hlinked
    exact hlinked.1

/-- A thread prints in a call nested in `serial_putc` while another one waits for the console. -/
def nestedRun : List (Bool × Action) :=
  [(true, .acquire), (true, .go), (true, .go), (true, .go), (true, .putchar 65),
    (false, .acquire), (false, .go), (true, .acquire), (true, .go), (false, .go),
    (true, .putchar 66), (true, .go), (true, .release), (true, .go), (true, .go), (true, .release),
    (true, .go), (true, .go), (true, .go), (false, .go)]

theorem console_contiguous_nestedRun :
    ∃ s, run step start nestedRun = some s ∧ s.depth = 0 ∧ s.consoleLock.failed = none ∧
      s.log = [.acquired true, .serialPutc true 65, .serialPutc true 66, .vgaPutc true 66,
        .vgaPutc true 65, .released true, .acquired false] := by
  refine exists_end (p := fun s => s.consoleLock.lock.holder = none ∧
    s.log = [.acquired true, .serialPutc true 65, .serialPutc true 66, .vgaPutc true 66,
      .vgaPutc true 65, .released true, .acquired false]) (by decide +kernel) ?_
  rintro s hs ⟨hholder, hlog⟩
  obtain ⟨-, hfree, -, -, -, hok, -⟩ := console_contiguous _ s hs
  exact ⟨hfree hholder, hok, hlog⟩

end Pintos.LibKernel.Console
