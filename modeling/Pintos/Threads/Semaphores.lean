import Pintos.Lib.Runs
import Pintos.Threads.Synch

/-!
# Semaphores

One semaphore and any number of threads and interrupt handlers that call `sema_down`,
`sema_try_down` and `sema_up`. The functions run with interrupts off, so that a step is a whole
call, or, for a thread that sleeps in `sema_down`, a pass through the loop: the thread is woken up
by a `sema_up` and tests the value again when it runs.

A thread that has been woken up does not own the unit it was woken up for: another thread may take
it first. What is true is that units and woken threads balance: while threads sleep, there are at
least as many woken threads that have not tested the value yet as there are units (`Inv.awake`).
-/

set_option autoImplicit false

namespace Pintos.Threads.Semaphores

open Function Lib.Runs Synch List

variable {τ : Type} [DecidableEq τ]

/-- A semaphore, the threads, and the number of calls that have been completed. -/
structure SemaState (τ : Type) where
  sema : Semaphore τ
  /-- The threads whose status is `THREAD_BLOCKED`. -/
  blocked : τ → Bool
  /-- The threads that have slept in the loop of `sema_down` and not left it. -/
  inDown : τ → Bool
  /-- The calls of `sema_up`. -/
  ups : Nat
  /-- The calls of `sema_down`, and those of `sema_try_down` that have succeeded. -/
  downs : Nat
  /-- The assertion of `thread_unblock` has failed. -/
  failed : Bool

/-- What happens next. `sema_try_down` and `sema_up` may be called by a thread or a handler. -/
inductive Action (τ : Type) where
  | down (t : τ)
  /-- A thread that has been woken up in `sema_down` runs. -/
  | resume (t : τ)
  | tryDown
  | up

namespace SemaState

/-- A pass through the loop of `sema_down`. -/
def pass (s : SemaState τ) (t : τ) : SemaState τ :=
  match s.sema.down t with
  | (true, sema) =>
    { s with
      sema := sema
      inDown := update s.inDown t false
      downs := s.downs + 1 }
  | (false, sema) =>
    { s with
      sema := sema
      inDown := update s.inDown t true
      blocked := update s.blocked t true }

def tryDown (s : SemaState τ) : SemaState τ :=
  match s.sema.tryDown with
  | (true, sema) => { s with sema := sema, downs := s.downs + 1 }
  | (false, sema) => { s with sema := sema }

def up (s : SemaState τ) : SemaState τ :=
  match s.sema.up with
  | (none, sema) => { s with sema := sema, ups := s.ups + 1 }
  | (some t, sema) =>
    if s.blocked t then
      { s with
        sema := sema
        blocked := update s.blocked t false
        ups := s.ups + 1 }
    else { s with failed := true }

end SemaState

/-- One step. -/
def step (s : SemaState τ) : Action τ → Option (SemaState τ)
  | .down t => if s.failed || s.inDown t || s.blocked t then none else some (s.pass t)
  | .resume t => if s.failed || !s.inDown t || s.blocked t then none else some (s.pass t)
  | .tryDown => if s.failed then none else some s.tryDown
  | .up => if s.failed then none else some s.up

/-- After `sema_init`. -/
def start (value : Nat) : SemaState τ :=
  ⟨semaInit value, fun _ => false, fun _ => false, 0, 0, false⟩

/-! ## The invariant -/

/-- A thread that `sema_up` has woken up and that has not tested the value yet. -/
def Awake (s : SemaState τ) (t : τ) : Prop := s.inDown t = true ∧ s.blocked t = false

structure Inv (value : Nat) (s : SemaState τ) : Prop where
  ok : s.failed = false
  nodup : s.sema.waiters.Nodup
  waiters : ∀ t, t ∈ s.sema.waiters ↔ s.blocked t = true
  asleep : ∀ t, s.blocked t = true → s.inDown t = true
  /-- Units are neither made nor lost. -/
  units : value + s.ups < 2 ^ 32 → s.sema.value + s.downs = value + s.ups
  /-- While threads sleep, there are enough others awake to take the units. -/
  awake : value + s.ups < 2 ^ 32 → s.sema.waiters ≠ [] →
    ∃ ws : List τ, ws.Nodup ∧ s.sema.value ≤ ws.length ∧ ∀ t ∈ ws, Awake s t

variable {value : Nat} {s s' : SemaState τ} {t : τ} {a : Action τ}

omit [DecidableEq τ] in
theorem inv_start (value : Nat) : Inv value (start value : SemaState τ) where
  ok := rfl
  nodup := nodup_nil
  waiters := fun t => by simp [start, semaInit]
  asleep := fun t h => by cases h
  units := fun _ => rfl
  awake := fun _ h => absurd rfl h

/-- A thread takes a unit. If it had been woken up, it is no longer one of those that have not
tested the value. -/
theorem Inv.take (h : Inv value s) (ht : s.blocked t = false) (hne : s.sema.value ≠ 0) :
    Inv value { s with
      sema := { s.sema with value := s.sema.value - 1 }
      inDown := update s.inDown t false
      downs := s.downs + 1 } := by
  refine ⟨h.ok, h.nodup, h.waiters, ?_, ?_, ?_⟩
  · intro u hb
    have hut : u ≠ t := by
      intro e
      have hb' : s.blocked u = true := hb
      rw [e, ht] at hb'
      cases hb'
    dsimp only
    rw [update_of_ne hut]
    exact h.asleep u hb
  · intro hlt
    have hunits := h.units hlt
    dsimp only
    omega
  · intro hlt hws
    obtain ⟨ws, hnodup, hle, hawake⟩ := h.awake hlt hws
    refine ⟨ws.erase t, hnodup.erase t, ?_, ?_⟩
    · dsimp only
      rw [length_erase]
      split_ifs <;> omega
    · intro u hu
      obtain ⟨hut, hu'⟩ := hnodup.mem_erase_iff.1 hu
      refine ⟨?_, (hawake u hu').2⟩
      dsimp only
      rw [update_of_ne hut]
      exact (hawake u hu').1

/-- A pass through the loop of `sema_down`. A thread that finds no unit sleeps, which makes no
promise: the value is 0. -/
theorem Inv.pass (h : Inv value s) (ht : s.blocked t = false) : Inv value (s.pass t) := by
  by_cases hz : s.sema.value = 0
  · simp only [SemaState.pass, Semaphore.down, if_pos hz]
    have hnew : t ∉ s.sema.waiters := by
      rw [h.waiters, ht]
      exact Bool.false_ne_true
    refine ⟨h.ok, h.nodup.append (nodup_singleton t) (by simpa using hnew), ?_, ?_, h.units, ?_⟩
    · intro u
      dsimp only
      by_cases hu : u = t
      · subst hu
        simp
      · rw [update_of_ne hu, ← h.waiters]
        simp [hu]
    · intro u hb
      by_cases hu : u = t
      · subst hu
        exact update_self ..
      · dsimp only at hb ⊢
        rw [update_of_ne hu] at hb ⊢
        exact h.asleep u hb
    · intro _ _
      exact ⟨[], nodup_nil, hz.le, fun u hu => absurd hu not_mem_nil⟩
  · simp only [SemaState.pass, Semaphore.down, if_neg hz]
    exact h.take ht hz

omit [DecidableEq τ] in
theorem Inv.tryDown (h : Inv value s) : Inv value s.tryDown := by
  by_cases hz : 0 < s.sema.value
  · simp only [SemaState.tryDown, Semaphore.tryDown, if_pos hz]
    refine ⟨h.ok, h.nodup, h.waiters, h.asleep, ?_, ?_⟩
    · intro hlt
      have hunits := h.units hlt
      dsimp only
      omega
    · intro hlt hws
      obtain ⟨ws, hnodup, hle, hawake⟩ := h.awake hlt hws
      exact ⟨ws, hnodup, le_trans (Nat.sub_le _ _) hle, hawake⟩
  · simp only [SemaState.tryDown, Semaphore.tryDown, if_neg hz]
    exact h

/-- One more unit, and one more thread awake if any slept. -/
theorem Inv.up (h : Inv value s) : Inv value s.up := by
  have hvalue : value + (s.ups + 1) < 2 ^ 32 →
      (s.sema.value + 1) % 2 ^ 32 = s.sema.value + 1 := by
    intro hlt
    have hunits := h.units (by omega)
    exact Nat.mod_eq_of_lt (by omega)
  cases hws : s.sema.waiters with
  | nil =>
    simp only [SemaState.up, Semaphore.up, hws, List.head?_nil, tail_nil]
    refine ⟨h.ok, nodup_nil, ?_, h.asleep, ?_, fun _ hne => absurd rfl hne⟩
    · rw [← hws]
      exact h.waiters
    · intro hlt
      have hunits := h.units (by dsimp only at hlt; omega)
      dsimp only at hlt ⊢
      omega
  | cons t rest =>
    have hnodup := h.nodup
    rw [hws, nodup_cons] at hnodup
    have hblocked : s.blocked t = true := (h.waiters t).1 (by rw [hws]; exact mem_cons_self)
    simp only [SemaState.up, Semaphore.up, hws, List.head?_cons, tail_cons, hblocked, if_true]
    refine ⟨h.ok, hnodup.2, ?_, ?_, ?_, ?_⟩
    · intro u
      have hu := h.waiters u
      rw [hws, mem_cons] at hu
      dsimp only
      by_cases hut : u = t
      · subst hut
        simp [hnodup.1]
      · rw [update_of_ne hut, ← hu]
        simp [hut]
    · intro u hb
      dsimp only at hb
      by_cases hut : u = t
      · rw [hut]
        exact h.asleep t hblocked
      · rw [update_of_ne hut] at hb
        exact h.asleep u hb
    · intro hlt
      have hunits := h.units (by dsimp only at hlt; omega)
      dsimp only at hlt ⊢
      rw [hvalue hlt]
      omega
    · -- the thread that is woken up joins those that are awake
      intro hlt _
      obtain ⟨ws, hws', hle, hawake⟩ := h.awake (by dsimp only at hlt; omega) (by rw [hws]; simp)
      refine ⟨t :: ws, nodup_cons.2 ⟨?_, hws'⟩, ?_, ?_⟩
      · intro hmem
        have hb := (hawake t hmem).2
        rw [hblocked] at hb
        cases hb
      · dsimp only at hlt ⊢
        rw [hvalue hlt]
        exact Nat.succ_le_succ hle
      · intro u hu
        rcases mem_cons.1 hu with rfl | hu
        · exact ⟨h.asleep u hblocked, update_self ..⟩
        · have hut : u ≠ t := by
            intro e
            have hb := (hawake u hu).2
            rw [e, hblocked] at hb
            cases hb
          exact ⟨(hawake u hu).1, (update_of_ne hut ..).trans (hawake u hu).2⟩

theorem step_inv (h : Inv value s) (hs : step s a = some s') : Inv value s' := by
  cases a with
  | down t =>
    simp only [step] at hs
    cases hb : s.blocked t with
    | true => simp [hb] at hs
    | false =>
      by_cases hd : s.inDown t = true
      · simp [hd] at hs
      · simp only [h.ok, hd, hb, Bool.or_self, Bool.false_eq_true, if_false,
          Option.some.injEq] at hs
        rw [← hs]
        exact h.pass hb
  | resume t =>
    simp only [step] at hs
    cases hb : s.blocked t with
    | true => simp [hb] at hs
    | false =>
      by_cases hd : s.inDown t = true
      · simp only [h.ok, hd, hb, Bool.not_true, Bool.or_self, Bool.false_eq_true, if_false,
          Option.some.injEq] at hs
        rw [← hs]
        exact h.pass hb
      · simp [hd] at hs
  | tryDown =>
    simp only [step, h.ok, Bool.false_eq_true, if_false, Option.some.injEq] at hs
    rw [← hs]
    exact h.tryDown
  | up =>
    simp only [step, h.ok, Bool.false_eq_true, if_false, Option.some.injEq] at hs
    rw [← hs]
    exact h.up

/-- Conservation and no lost wake-up: in every state that is reached, as long as the initial value
and the ups stay below 2^32, the value is the initial value and the ups less the downs; every thread
among the waiters is blocked and is there once; and while there are waiters, at least as many
threads as there are units have been woken up and not tested the value yet. No assertion fails. -/
theorem semaphore_conservation (value : Nat) (l : List (Action τ)) (s : SemaState τ)
    (hrun : run step (start value) l = some s) (hups : value + s.ups < 2 ^ 32) :
    s.downs ≤ value + s.ups ∧ s.sema.value = value + s.ups - s.downs ∧
    s.sema.waiters.Nodup ∧ (∀ t ∈ s.sema.waiters, s.blocked t = true) ∧
    (s.sema.waiters ≠ [] →
      ∃ ws : List τ, ws.Nodup ∧ s.sema.value ≤ ws.length ∧
        ∀ t ∈ ws, s.inDown t = true ∧ s.blocked t = false) ∧
    s.failed = false := by
  have h : Inv value s :=
    run_invariant (P := fun _ => True) (fun _ _ _ _ hi hs => step_inv hi hs) (fun _ _ => trivial)
      (inv_start value) hrun
  have hunits := h.units hups
  exact ⟨by omega, by omega, h.nodup, fun t ht => (h.waiters t).1 ht, h.awake hups, h.ok⟩

/-- Two threads sleep, one is woken up, and a handler takes its unit before it runs. -/
theorem semaphore_conservation_stolen :
    ∃ s, run step (start 0 : SemaState Bool)
      [.down true, .down false, .up, .tryDown, .resume true] = some s ∧
      s.sema.value = 0 + s.ups - s.downs ∧ s.sema.waiters = [false, true] := by
  refine exists_end (p := fun s => s.ups = 1 ∧ s.sema.waiters = [false, true])
    (by decide +kernel) ?_
  rintro s hs ⟨hups, hws⟩
  obtain ⟨-, hvalue, -⟩ := semaphore_conservation 0 _ s hs (by rw [hups]; norm_num)
  exact ⟨hvalue, hws⟩

end Pintos.Threads.Semaphores
