import Pintos.Lib.Runs
import Pintos.Threads.Synch

/-!
# Locks

One lock and any number of threads that call `lock_acquire`, `lock_try_acquire` and `lock_release`.
A thread may be preempted anywhere but inside the semaphore operations, which run with interrupts
off: between the assertion and the semaphore operation, and between the semaphore operation and the
write of `holder`. `LockPc` names these points, and `lockStep` is what a thread does from one of
them to the next.

The lock is in the hands of a thread from the successful semaphore operation of its acquire to the
`sema_up` of its release (`LockPc.InRegion`). Systems in which threads use a lock for something take
`LockState` as a part of their state and `LockInv` as a part of their invariant.
-/

set_option autoImplicit false

namespace Pintos.Threads.Locks

open Function Lib.Runs Synch List

/-- Where a thread is in the code of the lock. -/
inductive LockPc where
  /-- Outside, and not in possession of the lock. -/
  | out
  /-- In the loop of `sema_down` in `lock_acquire`. -/
  | acquiring
  /-- Before `sema_try_down` in `lock_try_acquire`. -/
  | trying
  /-- The semaphore is down, and `holder` is not written yet. -/
  | acquired
  /-- Outside, after a successful acquire. -/
  | holding
  /-- After the assertion of `lock_release`. -/
  | clearing
  /-- `holder` is reset, and `sema_up` is still to come. -/
  | releasing
  deriving DecidableEq

/-- Between a successful acquire and the `sema_up` of the release. -/
def LockPc.InRegion : LockPc → Bool
  | .acquired | .holding | .clearing | .releasing => true
  | _ => false

/-- The points at which `holder` names the thread. -/
def LockPc.Owns : LockPc → Bool
  | .holding | .clearing => true
  | _ => false

/-- Assertions of `synch.c` and `thread.c`. -/
inductive LockFailure where
  /-- In `lock_acquire`: the thread does not hold the lock. -/
  | acquireHeld
  /-- In `lock_try_acquire`: the thread does not hold the lock. -/
  | tryAcquireHeld
  /-- In `lock_release`: the thread holds the lock. -/
  | releaseNotHeld
  /-- In `thread_unblock`: the thread is blocked. -/
  | unblockStatus
  deriving DecidableEq

variable {τ : Type} [DecidableEq τ]

/-- A lock and the threads. -/
structure LockState (τ : Type) where
  lock : Lock τ
  /-- The threads whose status is `THREAD_BLOCKED`. -/
  blocked : τ → Bool
  pc : τ → LockPc
  /-- The assertion that has failed, and the thread that made it. -/
  failed : Option (τ × LockFailure)

/-- What a thread does: call a function of the lock, or go on. -/
inductive LockMove where
  | acquire
  | tryAcquire
  | release
  | go
  deriving DecidableEq

namespace LockState

def setPc (s : LockState τ) (t : τ) (pc : LockPc) : LockState τ :=
  { s with pc := update s.pc t pc }

def fail (s : LockState τ) (t : τ) (f : LockFailure) : LockState τ :=
  { s with failed := some (t, f) }

/-- A pass through the loop of `sema_down`. -/
def down (s : LockState τ) (t : τ) : LockState τ :=
  match s.lock.semaphore.down t with
  | (true, sema) => { s with lock := { s.lock with semaphore := sema } }.setPc t .acquired
  | (false, sema) =>
    { s with
      lock := { s.lock with semaphore := sema }
      blocked := update s.blocked t true }

/-- `sema_try_down`, and the return of `lock_try_acquire` when it fails. -/
def tryDown (s : LockState τ) (t : τ) : LockState τ :=
  match s.lock.semaphore.tryDown with
  | (true, sema) => { s with lock := { s.lock with semaphore := sema } }.setPc t .acquired
  | (false, _) => s.setPc t .out

/-- `sema_up`. -/
def up (s : LockState τ) (t : τ) : LockState τ :=
  match s.lock.semaphore.up with
  | (none, sema) => { s with lock := { s.lock with semaphore := sema } }.setPc t .out
  | (some u, sema) =>
    if s.blocked u then
      { s with
        lock := { s.lock with semaphore := sema }
        blocked := update s.blocked u false }.setPc t .out
    else s.fail t .unblockStatus

/-- The next part of the call a thread is in. -/
def go (s : LockState τ) (t : τ) : Option (LockState τ) :=
  match s.pc t with
  | .acquiring => some (s.down t)
  | .trying => some (s.tryDown t)
  | .acquired => some ({ s with lock := { s.lock with holder := some t } }.setPc t .holding)
  | .clearing => some ({ s with lock := { s.lock with holder := none } }.setPc t .releasing)
  | .releasing => some (s.up t)
  | _ => none

/-- The entry of a function, with its assertion on the holder. -/
def enter (s : LockState τ) (t : τ) : LockMove → Option (LockState τ)
  | .acquire =>
    some (if s.lock.holder = some t then s.fail t .acquireHeld else s.setPc t .acquiring)
  | .tryAcquire =>
    some (if s.lock.holder = some t then s.fail t .tryAcquireHeld else s.setPc t .trying)
  | .release =>
    some (if s.lock.holder = some t then s.setPc t .clearing else s.fail t .releaseNotHeld)
  | .go => none

end LockState

/-- A step of a thread. It may call a function with or without the lock; what it must not do is what
the assertions check. -/
def lockStep (s : LockState τ) (a : τ × LockMove) : Option (LockState τ) :=
  if s.failed = none ∧ s.blocked a.1 = false then
    if a.2 = .go then s.go a.1
    else if s.pc a.1 = .out ∨ s.pc a.1 = .holding then s.enter a.1 a.2
    else none
  else none

/-- After `lock_init`, with no thread in the code of the lock. -/
def lockStart : LockState τ := ⟨lockInit, fun _ => false, fun _ => .out, none⟩

/-! ## The invariant -/

/-- The semaphore, `holder` and the threads agree. -/
structure LockInv (s : LockState τ) : Prop where
  exclusive : ∀ t u, (s.pc t).InRegion = true → (s.pc u).InRegion = true → t = u
  value : s.lock.semaphore.value = 1 ∧ (∀ t, (s.pc t).InRegion = false) ∨
    s.lock.semaphore.value = 0 ∧ ∃ t, (s.pc t).InRegion = true
  holder : ∀ t, s.lock.holder = some t ↔ (s.pc t).Owns = true
  nodup : s.lock.semaphore.waiters.Nodup
  waiters : ∀ t, t ∈ s.lock.semaphore.waiters ↔ s.blocked t = true
  asleep : ∀ t, s.blocked t = true → s.pc t = .acquiring
  /-- An assertion fails only in a thread that acquires the lock twice or releases it without having
  it. -/
  misuse : ∀ t f, s.failed = some (t, f) →
    (f = .acquireHeld ∨ f = .tryAcquireHeld) ∧ s.pc t = .holding ∨
      f = .releaseNotHeld ∧ s.pc t = .out

variable {s s' : LockState τ} {t : τ} {m : LockMove} {u : τ} {p : LockPc} {sema : Semaphore τ}
  {a : τ × LockMove}

theorem setPc_self (p : LockPc) : (s.setPc t p).pc t = p := update_self ..

theorem setPc_of_ne (hu : u ≠ t) (p : LockPc) : (s.setPc t p).pc u = s.pc u :=
  update_of_ne hu ..

omit [DecidableEq τ] in
theorem inv_lockStart : LockInv (lockStart : LockState τ) where
  exclusive := fun t u h => by cases h
  value := .inl ⟨rfl, fun _ => rfl⟩
  holder := fun t => by simp [lockStart, lockInit, LockPc.Owns]
  nodup := nodup_nil
  waiters := fun t => by simp [lockStart, lockInit, semaInit]
  asleep := fun t h => by cases h
  misuse := fun t f h => by cases h

section

variable (h : LockInv s) (hfailed : s.failed = none) (hblocked : s.blocked t = false)
include h hfailed hblocked

omit [DecidableEq τ] h hblocked in
/-- No assertion has failed. -/
theorem no_misuse {P : τ → LockFailure → Prop} (u : τ) (f : LockFailure)
    (hf : s.failed = some (u, f)) : P u f := by
  rw [hfailed] at hf
  cases hf

omit hfailed in
/-- The threads that sleep are where they were. -/
theorem LockInv.asleep_setPc {blocked : τ → Bool}
    (hold : ∀ u, blocked u = true → s.blocked u = true)
    (u : τ) (hb : blocked u = true) : (s.setPc t p).pc u = .acquiring := by
  have hu : u ≠ t := by
    rintro rfl
    rw [hold u hb] at hblocked
    cases hblocked
  rw [setPc_of_ne hu]
  exact h.asleep u (hold u hb)

/-- A thread goes on without touching the semaphore. -/
theorem LockInv.setLock {lock : Lock τ} (hsema : lock.semaphore = s.lock.semaphore)
    (hregion : p.InRegion = (s.pc t).InRegion) (hself : lock.holder = some t ↔ p.Owns = true)
    (hothers : ∀ u, u ≠ t → (lock.holder = some u ↔ (s.pc u).Owns = true)) :
    LockInv ({ s with lock := lock }.setPc t p) := by
  have hsame : ∀ u, (({ s with lock := lock }.setPc t p).pc u).InRegion = (s.pc u).InRegion := by
    intro u
    by_cases hu : u = t
    · rw [hu, setPc_self, hregion]
    · rw [setPc_of_ne hu]
  refine ⟨?_, ?_, ?_, hsema ▸ h.nodup, hsema ▸ h.waiters, h.asleep_setPc hblocked fun _ => id,
    no_misuse hfailed⟩
  · intro u v hu hv
    rw [hsame] at hu hv
    exact h.exclusive u v hu hv
  · simp only [hsame]
    exact hsema ▸ h.value
  · intro u
    by_cases hu : u = t
    · rw [hu, setPc_self]
      exact hself
    · rw [setPc_of_ne hu]
      exact hothers u hu

/-- A thread goes on without touching the lock. -/
theorem LockInv.move (hregion : p.InRegion = (s.pc t).InRegion) (howns : p.Owns = (s.pc t).Owns) :
    LockInv (s.setPc t p) :=
  h.setLock hfailed hblocked rfl hregion (by rw [howns]; exact h.holder t) fun u _ => h.holder u

/-- The thread takes the lock, whose value was 1. -/
theorem LockInv.take (hvalue : s.lock.semaphore.value = 1) (hzero : sema.value = 0)
    (hwaiters : sema.waiters = s.lock.semaphore.waiters) :
    LockInv ({ s with lock := { s.lock with semaphore := sema } }.setPc t .acquired) := by
  have hfree : ∀ u, (s.pc u).InRegion = false := by
    rcases h.value with ⟨-, hfree⟩ | ⟨hv, -⟩
    · exact hfree
    · rw [hvalue] at hv
      cases hv
  have honly : ∀ u, (({ s with lock := { s.lock with semaphore := sema } }.setPc t .acquired).pc
      u).InRegion = true → u = t := by
    intro u hu
    by_contra hne
    rw [setPc_of_ne hne] at hu
    exact absurd (hfree u) (by simp [hu])
  refine ⟨?_, .inr ⟨hzero, t, by rw [setPc_self]; rfl⟩, ?_, ?_, ?_,
    h.asleep_setPc hblocked fun _ => id, no_misuse hfailed⟩
  · intro u v hu hv
    rw [honly u hu, honly v hv]
  · intro u
    have hnone : s.lock.holder ≠ some u := by
      intro hh
      have howns := (h.holder u).1 hh
      have hregion := hfree u
      cases hpc : s.pc u <;> rw [hpc] at howns hregion <;> cases howns <;> cases hregion
    by_cases hu : u = t
    · rw [hu, setPc_self]
      rw [hu] at hnone
      exact ⟨fun hh => absurd hh hnone, fun hh => by cases hh⟩
    · rw [setPc_of_ne hu]
      exact h.holder u
  · change sema.waiters.Nodup
    rw [hwaiters]
    exact h.nodup
  · intro u
    change u ∈ sema.waiters ↔ s.blocked u = true
    rw [hwaiters]
    exact h.waiters u

/-- The thread goes to sleep in `sema_down`. -/
theorem LockInv.sleep (hpc : s.pc t = .acquiring) (hvalue : sema.value = s.lock.semaphore.value)
    (hwaiters : sema.waiters = s.lock.semaphore.waiters ++ [t]) :
    LockInv { s with
      lock := { s.lock with semaphore := sema }
      blocked := update s.blocked t true } := by
  have hnew : t ∉ s.lock.semaphore.waiters := by
    rw [h.waiters, hblocked]
    exact Bool.false_ne_true
  refine ⟨h.exclusive, ?_, h.holder, ?_, ?_, ?_, no_misuse hfailed⟩
  · rw [hvalue]
    exact h.value
  · rw [hwaiters]
    exact h.nodup.append (nodup_singleton t) (by simpa using hnew)
  · intro u
    dsimp only
    rw [hwaiters, mem_append, mem_singleton]
    by_cases hu : u = t
    · subst hu
      simp
    · rw [update_of_ne hu, ← h.waiters]
      simp [hu]
  · intro u hb
    by_cases hu : u = t
    · rw [hu]
      exact hpc
    · dsimp only at hb
      rw [update_of_ne hu] at hb
      exact h.asleep u hb

/-- The holder is written or reset by the thread that has the lock. -/
theorem LockInv.setHolder (hregion : (s.pc t).InRegion = true) (hp : p.InRegion = true)
    {x : Option τ} (hx : x = if p.Owns then some t else none) :
    LockInv ({ s with lock := { s.lock with holder := x } }.setPc t p) := by
  have hothers : ∀ u, u ≠ t → (s.pc u).Owns = false := by
    intro u hu
    have hnot : (s.pc u).InRegion ≠ true := fun hr => hu (h.exclusive u t hr hregion)
    cases hpc : s.pc u <;> rw [hpc] at hnot <;> first | rfl | exact absurd rfl hnot
  refine h.setLock hfailed hblocked rfl (hp.trans hregion.symm) ?_ fun u hu => ?_
  · rw [hx]
    cases p.Owns <;> simp
  · rw [hx, hothers u hu]
    cases p.Owns <;> simp [Ne.symm hu]

/-- The `sema_up` of a release. -/
theorem LockInv.up (hpc : s.pc t = .releasing) : LockInv (s.up t) ∧ (s.up t).failed = none ∧
      (s.up t).pc = update s.pc t .out := by
  have hzero : s.lock.semaphore.value = 0 := by
    rcases h.value with ⟨-, hfree⟩ | ⟨hv, -⟩
    · have ht := hfree t
      rw [hpc] at ht
      cases ht
    · exact hv
  have hothers : ∀ u, u ≠ t → (s.pc u).InRegion = false := by
    intro u hu
    rw [Bool.eq_false_iff]
    exact fun hr => hu (h.exclusive u t hr (by rw [hpc]; rfl))
  -- what is left of the invariant once the semaphore and the sleeping threads are accounted for
  have hrest : ∀ {sema : Semaphore τ} {blocked : τ → Bool}, sema.value = 1 → sema.waiters.Nodup →
      (∀ u, u ∈ sema.waiters ↔ blocked u = true) → (∀ u, blocked u = true → s.blocked u = true) →
      LockInv ({ s with
        lock := { s.lock with semaphore := sema }
        blocked := blocked }.setPc t .out) := by
    intro sema blocked hone hnodup hmem hold
    have hout : ∀ u, (({ s with
        lock := { s.lock with semaphore := sema }
        blocked := blocked }.setPc t .out).pc u).InRegion = false := by
      intro u
      by_cases hu : u = t
      · rw [hu, setPc_self]
        rfl
      · rw [setPc_of_ne hu]
        exact hothers u hu
    refine ⟨?_, .inl ⟨hone, hout⟩, ?_, hnodup, hmem, h.asleep_setPc hblocked hold,
      no_misuse hfailed⟩
    · intro u v hu
      rw [hout] at hu
      cases hu
    · intro u
      by_cases hu : u = t
      · rw [hu, setPc_self]
        have hh := h.holder t
        rw [hpc] at hh
        exact hh
      · rw [setPc_of_ne hu]
        exact h.holder u
  have hvalue : (s.lock.semaphore.value + 1) % 2 ^ 32 = 1 := by
    rw [hzero]
    norm_num
  cases hws : s.lock.semaphore.waiters with
  | nil =>
    simp only [LockState.up, Semaphore.up, hws, List.head?_nil, tail_nil]
    refine ⟨hrest hvalue nodup_nil ?_ fun _ => id, hfailed, rfl⟩
    intro u
    rw [← hws]
    exact h.waiters u
  | cons v ws =>
    have hnodup := h.nodup
    rw [hws, nodup_cons] at hnodup
    have hv : s.blocked v = true := (h.waiters v).1 (by rw [hws]; exact mem_cons_self)
    simp only [LockState.up, Semaphore.up, hws, List.head?_cons, tail_cons, hv, if_true]
    refine ⟨hrest hvalue hnodup.2 ?_ ?_, hfailed, rfl⟩
    · intro u
      have hu := h.waiters u
      rw [hws, mem_cons] at hu
      by_cases huv : u = v
      · subst huv
        simp [hnodup.1]
      · rw [update_of_ne huv, ← hu]
        simp [huv]
    · intro u hb
      by_cases huv : u = v
      · rw [huv]
        exact hv
      · rwa [update_of_ne huv] at hb

end

/-! ## Steps and runs -/

omit [DecidableEq τ] in
/-- A failed assertion changes nothing else. -/
theorem LockInv.fail (h : LockInv s) {f : LockFailure}
    (hmisuse : (f = .acquireHeld ∨ f = .tryAcquireHeld) ∧ s.pc t = .holding ∨
      f = .releaseNotHeld ∧ s.pc t = .out) : LockInv (s.fail t f) := by
  refine ⟨h.exclusive, h.value, h.holder, h.nodup, h.waiters, h.asleep, ?_⟩
  intro u f' hf
  cases hf
  exact hmisuse

/-- The entry of a function. The assertions do what they are for: they fail exactly when the thread
has the lock and wants it again, or does not have it and wants to release it. -/
theorem LockInv.enter (h : LockInv s) (hfailed : s.failed = none) (hblocked : s.blocked t = false)
    (hpc : s.pc t = .out ∨ s.pc t = .holding) (hs : s.enter t m = some s') : LockInv s' := by
  have howns : s.lock.holder = some t ↔ s.pc t = .holding := by
    rw [h.holder]
    rcases hpc with hpc | hpc <;> rw [hpc] <;> simp [LockPc.Owns]
  have hout : s.lock.holder ≠ some t → s.pc t = .out := fun hne =>
    hpc.resolve_right fun hp => hne (howns.2 hp)
  cases m with
  | go => cases hs
  | acquire =>
    cases hs
    by_cases hh : s.lock.holder = some t
    · rw [if_pos hh]
      exact h.fail (.inl ⟨.inl rfl, howns.1 hh⟩)
    · rw [if_neg hh]
      exact h.move hfailed hblocked (by rw [hout hh]; rfl) (by rw [hout hh]; rfl)
  | tryAcquire =>
    cases hs
    by_cases hh : s.lock.holder = some t
    · rw [if_pos hh]
      exact h.fail (.inl ⟨.inr rfl, howns.1 hh⟩)
    · rw [if_neg hh]
      exact h.move hfailed hblocked (by rw [hout hh]; rfl) (by rw [hout hh]; rfl)
  | release =>
    cases hs
    by_cases hh : s.lock.holder = some t
    · rw [if_pos hh]
      exact h.move hfailed hblocked (by rw [howns.1 hh]; rfl) (by rw [howns.1 hh]; rfl)
    · rw [if_neg hh]
      exact h.fail (.inr ⟨rfl, hout hh⟩)

omit [DecidableEq τ] in
/-- The value of a lock's semaphore is 0 or 1. -/
theorem LockInv.value_eq_one (h : LockInv s) (hne : s.lock.semaphore.value ≠ 0) :
    s.lock.semaphore.value = 1 :=
  (h.value.resolve_right fun hz => hne hz.1).1

/-- What the next part of a call is. -/
theorem LockInv.go_cases (h : LockInv s) (hs : s.go t = some s') :
    (s.pc t = .acquiring ∧ s' = { s with
      lock := { s.lock with semaphore :=
        { s.lock.semaphore with waiters := s.lock.semaphore.waiters ++ [t] } }
      blocked := update s.blocked t true }) ∨
    ((s.pc t = .acquiring ∨ s.pc t = .trying) ∧ s.lock.semaphore.value = 1 ∧
      s' = { s with lock := { s.lock with semaphore :=
        { s.lock.semaphore with value := 0 } } }.setPc t .acquired) ∨
    (s.pc t = .trying ∧ s' = s.setPc t .out) ∨
    (s.pc t = .acquired ∧
      s' = { s with lock := { s.lock with holder := some t } }.setPc t .holding) ∨
    (s.pc t = .clearing ∧
      s' = { s with lock := { s.lock with holder := none } }.setPc t .releasing) ∨
    s.pc t = .releasing ∧ s' = s.up t := by
  cases hpc : s.pc t <;> simp only [LockState.go, hpc, Option.some.injEq, reduceCtorEq] at hs
  case acquiring =>
    rw [← hs]
    by_cases hz : s.lock.semaphore.value = 0
    · simp [LockState.down, Semaphore.down, hz]
    · have hone := h.value_eq_one hz
      simp [LockState.down, Semaphore.down, hone]
  case trying =>
    rw [← hs]
    by_cases hz : s.lock.semaphore.value = 0
    · simp [LockState.tryDown, Semaphore.tryDown, hz]
    · have hone := h.value_eq_one hz
      simp [LockState.tryDown, Semaphore.tryDown, hone]
  all_goals simp [← hs]

/-- The next part of a call. No assertion fails in it. -/
theorem LockInv.go (h : LockInv s) (hfailed : s.failed = none) (hblocked : s.blocked t = false)
    (hs : s.go t = some s') : LockInv s' ∧ s'.failed = none := by
  rcases h.go_cases hs with ⟨hpc, rfl⟩ | ⟨-, hone, rfl⟩ | ⟨hpc, rfl⟩ | ⟨hpc, rfl⟩ | ⟨hpc, rfl⟩ |
      ⟨hpc, rfl⟩
  · exact ⟨h.sleep hfailed hblocked hpc rfl rfl, hfailed⟩
  · exact ⟨h.take hfailed hblocked hone rfl rfl, hfailed⟩
  · exact ⟨h.move hfailed hblocked (by rw [hpc]; rfl) (by rw [hpc]; rfl), hfailed⟩
  · exact ⟨h.setHolder hfailed hblocked (by rw [hpc]; rfl) rfl rfl, hfailed⟩
  · exact ⟨h.setHolder hfailed hblocked (by rw [hpc]; rfl) rfl rfl, hfailed⟩
  · exact ⟨(h.up hfailed hblocked hpc).1, (h.up hfailed hblocked hpc).2.1⟩

/-- What a step is: the entry of a function or the next part of one, by a thread that runs. -/
theorem lockStep_cases (hs : lockStep s a = some s') :
    s.failed = none ∧ s.blocked a.1 = false ∧
      (a.2 = .go ∧ s.go a.1 = some s' ∨
        (s.pc a.1 = .out ∨ s.pc a.1 = .holding) ∧ a.2 ≠ .go ∧ s.enter a.1 a.2 = some s') := by
  unfold lockStep at hs
  by_cases hruns : s.failed = none ∧ s.blocked a.1 = false
  · rw [if_pos hruns] at hs
    refine ⟨hruns.1, hruns.2, ?_⟩
    by_cases hgo : a.2 = .go
    · rw [if_pos hgo] at hs
      exact .inl ⟨hgo, hs⟩
    · rw [if_neg hgo] at hs
      by_cases hpc : s.pc a.1 = .out ∨ s.pc a.1 = .holding
      · rw [if_pos hpc] at hs
        exact .inr ⟨hpc, hgo, hs⟩
      · rw [if_neg hpc] at hs
        cases hs
  · rw [if_neg hruns] at hs
    cases hs

theorem lockStep_inv (h : LockInv s) (hs : lockStep s a = some s') :
    LockInv s' := by
  obtain ⟨hfailed, hblocked, ⟨-, hgo⟩ | ⟨hpc, -, henter⟩⟩ := lockStep_cases hs
  · exact (h.go hfailed hblocked hgo).1
  · exact h.enter hfailed hblocked hpc henter

/-! ## Steps as seen by a system that uses the lock -/

/-- A thread that does not have the lock enters `lock_acquire`. -/
theorem lockStep_acquire (h : LockInv s) (hpc : s.pc t = .out)
    (hs : lockStep s (t, .acquire) = some s') : s' = s.setPc t .acquiring := by
  obtain ⟨-, -, ⟨hm, -⟩ | ⟨-, -, henter⟩⟩ := lockStep_cases hs
  · cases hm
  · have hnot : s.lock.holder ≠ some t := by
      rw [ne_eq, h.holder, hpc]
      exact Bool.false_ne_true
    simp only [LockState.enter, if_neg hnot, Option.some.injEq] at henter
    exact henter.symm

/-- A thread that has the lock enters `lock_release`. -/
theorem lockStep_release (h : LockInv s) (hpc : s.pc t = .holding)
    (hs : lockStep s (t, .release) = some s') : s' = s.setPc t .clearing := by
  obtain ⟨-, -, ⟨hm, -⟩ | ⟨-, -, henter⟩⟩ := lockStep_cases hs
  · cases hm
  · have hheld : s.lock.holder = some t := by
      rw [h.holder, hpc]
      rfl
    simp only [LockState.enter, if_pos hheld, Option.some.injEq] at henter
    exact henter.symm

/-- What the next part of a call does to the threads: only the thread that runs moves, it takes the
lock only when no thread has it, and no assertion fails. -/
theorem lockStep_go (h : LockInv s) (hs : lockStep s (t, .go) = some s') :
    s'.failed = none ∧ (∀ u, u ≠ t → s'.pc u = s.pc u) ∧
      (s.pc t = .acquiring ∧ s'.pc t = .acquiring ∨
        (s.pc t = .acquiring ∨ s.pc t = .trying) ∧ (∀ u, (s.pc u).InRegion = false) ∧
          s'.pc t = .acquired ∨
        s.pc t = .trying ∧ s'.pc t = .out ∨
        s.pc t = .acquired ∧ s'.pc t = .holding ∨
        s.pc t = .clearing ∧ s'.pc t = .releasing ∨
        s.pc t = .releasing ∧ s'.pc t = .out) := by
  obtain ⟨hfailed, hblocked, ⟨-, hgo⟩ | ⟨-, hm, -⟩⟩ := lockStep_cases hs
  · refine ⟨(h.go hfailed hblocked hgo).2, ?_⟩
    rcases h.go_cases hgo with ⟨hpc, rfl⟩ | ⟨hpc, hone, rfl⟩ | ⟨hpc, rfl⟩ |
        ⟨hpc, rfl⟩ | ⟨hpc, rfl⟩ | ⟨hpc, rfl⟩
    · exact ⟨fun _ _ => rfl, .inl ⟨hpc, hpc⟩⟩
    · have hfree := (h.value.resolve_right fun hz => by omega).2
      exact ⟨fun u hu => setPc_of_ne hu _, .inr (.inl ⟨hpc, hfree, setPc_self _⟩)⟩
    · exact ⟨fun u hu => setPc_of_ne hu _, .inr (.inr (.inl ⟨hpc, setPc_self _⟩))⟩
    · exact ⟨fun u hu => setPc_of_ne hu _, .inr (.inr (.inr (.inl ⟨hpc, setPc_self _⟩)))⟩
    · exact ⟨fun u hu => setPc_of_ne hu _, .inr (.inr (.inr (.inr (.inl ⟨hpc, setPc_self _⟩))))⟩
    · rw [(h.up hfailed hblocked hpc).2.2]
      exact ⟨fun u hu => update_of_ne hu ..,
        .inr (.inr (.inr (.inr (.inr ⟨hpc, update_self ..⟩))))⟩
  · exact absurd rfl hm

/-- Only the thread that runs moves. -/
theorem lockStep_others (h : LockInv s) (hs : lockStep s (t, m) = some s') (hu : u ≠ t) :
    s'.pc u = s.pc u := by
  obtain ⟨-, -, ⟨rfl, -⟩ | ⟨-, -, henter⟩⟩ := lockStep_cases hs
  · exact (lockStep_go h hs).2.1 u hu
  · cases m with
    | go => cases henter
    | acquire =>
      cases henter
      split
      · rfl
      · exact setPc_of_ne hu _
    | tryAcquire =>
      cases henter
      split
      · rfl
      · exact setPc_of_ne hu _
    | release =>
      cases henter
      split
      · exact setPc_of_ne hu _
      · rfl

/-- A step of a thread that is at or in `lock_acquire`: it enters or sleeps, takes the free lock, or
writes `holder` and returns. -/
theorem lockStep_inAcquire (h : LockInv s) (hfailed : s.failed = none)
    (hpc : s.pc t = .out ∨ s.pc t = .acquiring ∨ s.pc t = .acquired)
    (hs : lockStep s (t, if s.pc t = .out then .acquire else .go) = some s') :
    LockInv s' ∧ s'.failed = none ∧ (∀ u, u ≠ t → s'.pc u = s.pc u) ∧
      ((s.pc t).InRegion = false ∧ s'.pc t = .acquiring ∨
        (∀ u, (s.pc u).InRegion = false) ∧ s'.pc t = .acquired ∨
        s.pc t = .acquired ∧ s'.pc t = .holding) := by
  by_cases hout : s.pc t = .out
  · rw [if_pos hout] at hs
    have heq := lockStep_acquire h hout hs
    refine ⟨lockStep_inv h hs, by rw [heq]; exact hfailed, ?_, .inl ⟨?_, ?_⟩⟩
    · intro u hu
      rw [heq, setPc_of_ne hu]
    · rw [hout]
      rfl
    · rw [heq, setPc_self]
  · rw [if_neg hout] at hs
    obtain ⟨hok, hothers, hcases⟩ := lockStep_go h hs
    refine ⟨lockStep_inv h hs, hok, hothers, ?_⟩
    rcases hcases with ⟨hold, hself⟩ | ⟨-, hfree, hself⟩ | ⟨hold, -⟩ | ⟨hold, hself⟩ | ⟨hold, -⟩ |
        ⟨hold, -⟩
    · exact .inl ⟨by rw [hold]; rfl, hself⟩
    · exact .inr (.inl ⟨hfree, hself⟩)
    · simp [hold] at hpc
    · exact .inr (.inr ⟨hold, hself⟩)
    · simp [hold] at hpc
    · simp [hold] at hpc

/-- A step of a thread that has the lock and is at or in `lock_release`: it enters, resets `holder`,
or makes the lock free and returns. -/
theorem lockStep_inRelease (h : LockInv s) (hfailed : s.failed = none)
    (hpc : s.pc t = .holding ∨ s.pc t = .clearing ∨ s.pc t = .releasing)
    (hs : lockStep s (t, if s.pc t = .holding then .release else .go) = some s') :
    LockInv s' ∧ s'.failed = none ∧ (∀ u, u ≠ t → s'.pc u = s.pc u) ∧
      (s'.pc t = .clearing ∨ s'.pc t = .releasing ∨ s'.pc t = .out) := by
  by_cases hholding : s.pc t = .holding
  · rw [if_pos hholding] at hs
    have heq := lockStep_release h hholding hs
    refine ⟨lockStep_inv h hs, by rw [heq]; exact hfailed, ?_, .inl ?_⟩
    · intro u hu
      rw [heq, setPc_of_ne hu]
    · rw [heq, setPc_self]
  · rw [if_neg hholding] at hs
    obtain ⟨hok, hothers, hcases⟩ := lockStep_go h hs
    refine ⟨lockStep_inv h hs, hok, hothers, ?_⟩
    rcases hcases with ⟨hold, -⟩ | ⟨hold | hold, -⟩ | ⟨hold, -⟩ | ⟨hold, -⟩ |
      ⟨-, hself⟩ | ⟨-, hself⟩
    · simp [hold] at hpc
    · simp [hold] at hpc
    · simp [hold] at hpc
    · simp [hold] at hpc
    · simp [hold] at hpc
    · exact .inr (.inl hself)
    · exact .inr (.inr hself)

/-! ## Mutual exclusion -/

/-- Mutual exclusion: in every state that is reached, at most one thread is between a successful
acquire and the `sema_up` of its release; the value is 0 or 1, and 1 only when no thread is there;
`holder` is null or that thread; and the assertion of `lock_release` holds for a thread that has
acquired the lock and not released it. The only assertions that fail are those of threads that
acquire a lock they have or release a lock they do not have. -/
theorem lock_exclusion (l : List (τ × LockMove)) (s : LockState τ)
    (hrun : run lockStep lockStart l = some s) :
    (∀ t u, (s.pc t).InRegion = true → (s.pc u).InRegion = true → t = u) ∧
    (s.lock.semaphore.value = 0 ∨ s.lock.semaphore.value = 1) ∧
    (s.lock.semaphore.value = 1 → ∀ t, (s.pc t).InRegion = false) ∧
    (∀ t, s.lock.holder = some t → (s.pc t).InRegion = true) ∧
    (s.failed = none → ∀ t, s.pc t = .holding →
      ∃ s', lockStep s (t, .release) = some s' ∧ s'.failed = none) ∧
    ∀ t f, s.failed = some (t, f) →
      (f = .acquireHeld ∨ f = .tryAcquireHeld) ∧ s.pc t = .holding ∨
        f = .releaseNotHeld ∧ s.pc t = .out := by
  have h : LockInv s :=
    run_invariant (P := fun _ => True) (fun _ _ _ _ hi hs => lockStep_inv hi hs)
      (fun _ _ => trivial) inv_lockStart hrun
  refine ⟨h.exclusive, ?_, ?_, ?_, ?_, h.misuse⟩
  · rcases h.value with ⟨hv, -⟩ | ⟨hv, -⟩
    · exact .inr hv
    · exact .inl hv
  · intro hone
    rcases h.value with ⟨-, hfree⟩ | ⟨hv, -⟩
    · exact hfree
    · rw [hone] at hv
      cases hv
  · intro t ht
    have howns := (h.holder t).1 ht
    cases hpc : s.pc t <;> rw [hpc] at howns <;> first | rfl | cases howns
  · intro hfailed t hpc
    have hheld : s.lock.holder = some t := (h.holder t).2 (by rw [hpc]; rfl)
    have hblocked : s.blocked t = false := by
      rw [Bool.eq_false_iff]
      intro hb
      have hacquiring := h.asleep t hb
      rw [hpc] at hacquiring
      cases hacquiring
    refine ⟨s.setPc t .clearing, ?_, hfailed⟩
    rw [lockStep, if_pos ⟨hfailed, hblocked⟩, if_neg LockMove.noConfusion, if_pos (.inr hpc)]
    exact congrArg some (if_pos hheld)

/-- One thread has the lock and the other one sleeps until it is released. -/
theorem lock_exclusion_twoThreads :
    ∃ s, run lockStep lockStart
      [(true, .acquire), (true, .go), (false, .acquire), (false, .go), (true, .go),
        (true, .release), (true, .go), (true, .go), (false, .go)] = some s ∧
      s.pc false = .acquired ∧ ∀ t, (s.pc t).InRegion = true → t = false := by
  refine exists_end (p := fun s => s.pc false = .acquired) (by decide +kernel) ?_
  intro s hs hacquired
  obtain ⟨hex, -⟩ := lock_exclusion _ s hs
  exact ⟨hacquired, fun t ht => hex t false ht (by rw [hacquired]; rfl)⟩

end Pintos.Threads.Locks
