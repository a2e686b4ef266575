import Pintos.Threads.Conditions

/-!
# The invariant of condition variables

The invariant of the condition variable is in four parts. `Linked` ties a thread's place in the code
of the condition variable to its place in the code of the lock, so that at most one thread is in a
part that reads or writes the queue. `Ordered` says that the queue is what has been put in and not
been taken out. `Sleeping` is about the semaphores of the entries: an entry that is in the queue, or
in the hands of a thread that has taken it out, has a semaphore with the value 0; after the
`sema_up` it has the value 1 until its thread takes it. `Called` follows each call of `cond_signal`
and `cond_broadcast` through the log.
-/

set_option autoImplicit false

namespace Pintos.Threads.Conditions

open Function Lib.Runs Synch Locks List

variable {τ : Type} [DecidableEq τ] {log : List (Event τ)} {t u : τ} {k c entries : Nat}

/-! ## What the log says -/

/-- The entries that were made, in order. -/
def enqueuedIn (log : List (Event τ)) : List (τ × Nat) :=
  log.filterMap fun e => match e with
    | .enqueued t k => some (t, k)
    | _ => none

/-- The entries that were taken out, in order. -/
def removedIn (log : List (Event τ)) : List (τ × Nat) :=
  log.filterMap fun e => match e with
    | .removed _ t k => some (t, k)
    | _ => none

/-- The entries that the call `c` has taken out. -/
def removedBy (c : Nat) (log : List (Event τ)) : List (τ × Nat) :=
  log.filterMap fun e => match e with
    | .removed d t k => if d = c then some (t, k) else none
    | _ => none

/-- The entries whose semaphores the call `c` has made go up. -/
def uppedBy (c : Nat) (log : List (Event τ)) : List (τ × Nat) :=
  log.filterMap fun e => match e with
    | .upped d t k => if d = c then some (t, k) else none
    | _ => none

/-- The entries that were made and not taken out, the oldest first. -/
def waitingIn (log : List (Event τ)) : List (τ × Nat) :=
  (enqueuedIn log).filter fun e => e ∉ removedIn log

/-- The entry `k` of the thread `t` was taken out and its semaphore made to go up by a call that
came after the entry. -/
def Released (log : List (Event τ)) (t : τ) (k : Nat) : Prop :=
  ∃ a c kind u q b, log = a ++ .called c kind u q :: b ∧ .enqueued t k ∈ a ∧ .removed c t k ∈ b ∧
    .upped c t k ∈ b

/-- The entries that a call is to release, of those in the queue. -/
def Kind.released (q : List (τ × Nat)) : Kind → List (τ × Nat)
  | .signal => q.take 1
  | .broadcast => q

section
omit [DecidableEq τ]

@[simp] theorem enqueuedIn_append (l₁ l₂ : List (Event τ)) :
    enqueuedIn (l₁ ++ l₂) = enqueuedIn l₁ ++ enqueuedIn l₂ := filterMap_append ..

@[simp] theorem removedIn_append (l₁ l₂ : List (Event τ)) :
    removedIn (l₁ ++ l₂) = removedIn l₁ ++ removedIn l₂ := filterMap_append ..

@[simp] theorem removedBy_append (c : Nat) (l₁ l₂ : List (Event τ)) :
    removedBy c (l₁ ++ l₂) = removedBy c l₁ ++ removedBy c l₂ := filterMap_append ..

@[simp] theorem uppedBy_append (c : Nat) (l₁ l₂ : List (Event τ)) :
    uppedBy c (l₁ ++ l₂) = uppedBy c l₁ ++ uppedBy c l₂ := filterMap_append ..

theorem mem_enqueuedIn :
    (t, k) ∈ enqueuedIn log ↔ .enqueued t k ∈ log := by
  rw [enqueuedIn, mem_filterMap]
  constructor
  · rintro ⟨e, he, hk⟩
    cases e <;> simp only [Option.some.injEq, Prod.mk.injEq, reduceCtorEq] at hk
    rwa [← hk.1, ← hk.2]
  · intro he
    exact ⟨_, he, rfl⟩

theorem mem_removedIn (h : .removed c t k ∈ log) : (t, k) ∈ removedIn log :=
  mem_filterMap.2 ⟨_, h, rfl⟩

theorem mem_removedBy :
    (t, k) ∈ removedBy c log ↔ .removed c t k ∈ log := by
  rw [removedBy, mem_filterMap]
  constructor
  · rintro ⟨e, he, hk⟩
    cases e with
    | removed d u j =>
      by_cases hd : d = c
      · simp only [hd, if_true, Option.some.injEq, Prod.mk.injEq] at hk
        rwa [hd, hk.1, hk.2] at he
      · simp only [hd, if_false, reduceCtorEq] at hk
    | _ => cases hk
  · intro he
    exact ⟨_, he, if_pos rfl⟩

theorem Released.append (h : Released log t k) (l : List (Event τ)) : Released (log ++ l) t k := by
  obtain ⟨a, c, kind, u, q, b, rfl, he, hr, hu⟩ := h
  exact ⟨a, c, kind, u, q, b ++ l, by simp, he, mem_append_left l hr, mem_append_left l hu⟩

end

/-! ## Where a thread is -/

/-- The part of the code that reads or writes the queue. -/
def Pc.Inside : Pc τ → Bool
  | .waitEnqueue | .loop _ | .test _ _ | .pop _ _ | .up _ _ _ _ => true
  | _ => false

/-- The entry whose `sema_up` the thread is about to do. -/
def Pc.target : Pc τ → Option (τ × Nat)
  | .up _ _ t k => some (t, k)
  | _ => none

/-- The entry of a thread that has not passed its `sema_down`. -/
def Pc.waits : Pc τ → Option Nat
  | .waitRelease k | .waitDown k => some k
  | _ => none

/-- The call of `cond_signal` or `cond_broadcast` that the thread is in. -/
def Pc.inCall : Pc τ → Option (Nat × Kind)
  | .loop c => some (c, .broadcast)
  | .test c kind | .pop c kind | .up c kind _ _ => some (c, kind)
  | _ => none

/-- The place of a thread in the code of the lock, by its place in that of the condition
variable. -/
def Linked (p : LockPc) : Pc τ → Prop
  | .out => True
  | .waitRelease _ => p = .holding ∨ p = .clearing ∨ p = .releasing
  | .waitDown _ => p = .out
  | .waitAcquire _ => p = .out ∨ p = .acquiring ∨ p = .acquired
  | _ => p = .holding

section
omit [DecidableEq τ]

variable {pc : Pc τ}

theorem Linked.holding {p : LockPc} (h : Linked p pc) (hpc : pc.Inside = true) :
    p = .holding := by
  cases pc <;> first | exact h | cases hpc

theorem Pc.inside_of_inCall {x : Nat × Kind} (h : pc.inCall = some x) :
    pc.Inside = true := by
  cases pc <;> first | rfl | cases h

theorem Pc.inside_of_target {x : τ × Nat} (h : pc.target = some x) :
    pc.Inside = true := by
  cases pc <;> first | rfl | cases h

end

/-! ## The queue -/

/-- The queue is what has been put in and not been taken out, and the entries are numbered. -/
structure Ordered (waiters : List (τ × Nat)) (entries : Nat) (log : List (Event τ)) : Prop where
  queue : removedIn log ++ waiters = enqueuedIn log
  numbers : (enqueuedIn log).map Prod.snd = List.range entries

section
omit [DecidableEq τ]
variable {waiters : List (τ × Nat)} {entries : Nat} {log : List (Event τ)}

theorem Ordered.nodup (h : Ordered waiters entries log) : (removedIn log ++ waiters).Nodup := by
  rw [h.queue]
  refine List.Nodup.of_map Prod.snd ?_
  rw [h.numbers]
  exact nodup_range

theorem Ordered.lt_entries (h : Ordered waiters entries log) (hmem : (t, k) ∈ enqueuedIn log) :
    k < entries := by
  rw [← mem_range, ← h.numbers]
  exact mem_map_of_mem hmem

/-- The number of an entry determines its thread. -/
theorem Ordered.thread_eq (h : Ordered waiters entries log) (ht : (t, k) ∈ enqueuedIn log)
    (hu : (u, k) ∈ enqueuedIn log) : t = u := by
  have hinj := inj_on_of_nodup_map (by rw [h.numbers]; exact nodup_range) ht hu rfl
  exact congrArg Prod.fst hinj

/-- An event that is not about the queue. -/
theorem Ordered.append (h : Ordered waiters entries log) {l : List (Event τ)}
    (hr : removedIn l = []) (he : enqueuedIn l = []) : Ordered waiters entries (log ++ l) :=
  ⟨by simp [hr, he, h.queue], by simp [he, h.numbers]⟩

theorem Ordered.enqueue (h : Ordered waiters entries log) (t : τ) :
    Ordered (waiters ++ [(t, entries)]) (entries + 1) (log ++ [.enqueued t entries]) := by
  constructor
  · rw [removedIn_append, enqueuedIn_append, ← h.queue]
    simp [removedIn, enqueuedIn]
  · rw [enqueuedIn_append, map_append, h.numbers, range_succ]
    rfl

theorem Ordered.remove {rest : List (τ × Nat)} (h : Ordered ((t, k) :: rest) entries log) :
    Ordered rest entries (log ++ [.removed c t k]) := by
  constructor
  · rw [removedIn_append, enqueuedIn_append, ← h.queue]
    simp [removedIn, enqueuedIn]
  · simpa [enqueuedIn] using h.numbers

end

theorem Ordered.waiters_eq {waiters : List (τ × Nat)} (h : Ordered waiters entries log) :
    waiters = waitingIn log := by
  have hdisjoint := disjoint_of_nodup_append h.nodup
  rw [waitingIn, ← h.queue, filter_append, filter_eq_nil_iff.2, nil_append,
    filter_eq_self.2]
  · intro e he
    simpa using fun hr => hdisjoint hr he
  · simp

/-! ## The semaphores -/

/-- The entry is in the queue, or a thread has taken it out and is about to make its semaphore go
up. -/
def Pending (waiters : List (τ × Nat)) (pc : τ → Pc τ) (t : τ) (k : Nat) : Prop :=
  (t, k) ∈ waiters ∨ ∃ u, (pc u).target = some (t, k)

/-- The semaphores of the entries, and the threads that wait for them. -/
structure Sleeping (waiters : List (τ × Nat)) (pc : τ → Pc τ) (sema : Nat → Semaphore τ)
    (blocked : τ → Bool) (log : List (Event τ)) : Prop where
  pending : ∀ t k, Pending waiters pc t k →
    (pc t).waits = some k ∧ sema k = ⟨0, if blocked t then [t] else []⟩
  waiting : ∀ t k, (pc t).waits = some k →
    Pending waiters pc t k ∨ Released log t k ∧ sema k = ⟨1, []⟩ ∧ blocked t = false
  woken : ∀ t k, pc t = .waitAcquire k → Released log t k
  asleep : ∀ t, blocked t = true → ∃ k, pc t = .waitDown k
  upped : ∀ c t k, .upped c t k ∈ log → (t, k) ∈ enqueuedIn log ∧ ¬Pending waiters pc t k
  entry : ∀ t k, (pc t).waits = some k → (t, k) ∈ enqueuedIn log

section
variable {waiters waiters' : List (τ × Nat)} {pc : τ → Pc τ} {sema sema' : Nat → Semaphore τ}
  {blocked blocked' : τ → Bool} {log l : List (Event τ)} {t : τ} {k : Nat} {p : Pc τ}

theorem update_same {γ : Type} {g : Pc τ → γ} (hp : g p = g (pc t)) (v : τ) :
    g (update pc t p v) = g (pc v) := by
  by_cases hv : v = t
  · rw [hv, update_self, hp]
  · rw [update_of_ne hv]

/-- A thread that goes on with the entry in its hands, or without one, changes nothing. -/
theorem pending_update (htarget : p.target = (pc t).target) {j : Nat} :
    Pending waiters (update pc t p) u j ↔ Pending waiters pc u j := by
  simp only [Pending, update_same (g := Pc.target) htarget]

omit [DecidableEq τ] in
theorem Sleeping.waiting_append (h : Sleeping waiters pc sema blocked log)
    (hw : (pc u).waits = some k) (l : List (Event τ)) : (u, k) ∈ enqueuedIn (log ++ l) ∧
      (Pending waiters pc u k ∨
        Released (log ++ l) u k ∧ sema k = ⟨1, []⟩ ∧ blocked u = false) := by
  rw [enqueuedIn_append]
  exact ⟨mem_append_left _ (h.entry u k hw),
    (h.waiting u k hw).imp_right fun hr => ⟨hr.1.append l, hr.2⟩⟩

/-- The thread `t` goes on, and nobody falls asleep. -/
theorem Sleeping.step (h : Sleeping waiters pc sema blocked log) (hawake : blocked t = false)
    (hblocked : ∀ u, blocked' u = true → blocked u = true)
    (hpending : ∀ u j, Pending waiters' (update pc t p) u j →
      (update pc t p u).waits = some j ∧ sema' j = ⟨0, if blocked' u then [u] else []⟩)
    (hwaiting : ∀ u j, (update pc t p u).waits = some j → (u, j) ∈ enqueuedIn (log ++ l) ∧
      (Pending waiters' (update pc t p) u j ∨
        Released (log ++ l) u j ∧ sema' j = ⟨1, []⟩ ∧ blocked' u = false))
    (hwoken : ∀ j, p = .waitAcquire j → Released (log ++ l) t j)
    (hold : ∀ u j, (u, j) ∈ enqueuedIn log → Pending waiters' (update pc t p) u j →
      Pending waiters pc u j)
    (hupped : ∀ c u j, .upped c u j ∈ l →
      (u, j) ∈ enqueuedIn log ∧ ¬ Pending waiters' (update pc t p) u j) :
    Sleeping waiters' (update pc t p) sema' blocked' (log ++ l) := by
  refine ⟨hpending, fun u j hw => (hwaiting u j hw).2, ?_, ?_, ?_,
    fun u j hw => (hwaiting u j hw).1⟩
  · intro u j hu
    by_cases hut : u = t
    · subst hut
      rw [update_self] at hu
      exact hwoken j hu
    · rw [update_of_ne hut] at hu
      exact (h.woken u j hu).append l
  · intro u hu
    have hut : u ≠ t := by
      rintro rfl
      rw [hblocked u hu] at hawake
      cases hawake
    rw [update_of_ne hut]
    exact h.asleep u (hblocked u hu)
  · intro c u j he
    rw [enqueuedIn_append]
    rcases mem_append.1 he with he | he
    · obtain ⟨hmem, hnot⟩ := h.upped c u j he
      exact ⟨mem_append_left _ hmem, fun hp => hnot (hold u j hmem hp)⟩
    · exact (hupped c u j he).imp_left (mem_append_left _)

/-- A thread goes on, and what it does is not about the semaphores. -/
theorem Sleeping.move (h : Sleeping waiters pc sema blocked log) (hwaits : p.waits = (pc t).waits)
    (htarget : p.target = (pc t).target) (hblocked : blocked t = false)
    (hwoken : ∀ j, p = .waitAcquire j → pc t = .waitAcquire j)
    (hupped : ∀ c u j, .upped c u j ∉ l) :
    Sleeping waiters (update pc t p) sema blocked (log ++ l) := by
  have hsame := update_same (g := Pc.waits) hwaits
  refine h.step hblocked (fun _ => id) ?_ ?_
    (fun j hj => (h.woken t j (hwoken j hj)).append l) (fun u j _ => (pending_update htarget).1)
    fun c u j he => absurd he (hupped c u j)
  · intro u j hp
    rw [hsame]
    exact h.pending u j ((pending_update htarget).1 hp)
  · intro u j hw
    rw [hsame] at hw
    rw [pending_update htarget]
    exact h.waiting_append hw l

/-- The new entry. Nobody else has its number. -/
theorem Sleeping.enqueue (h : Sleeping waiters pc sema blocked log)
    (hordered : Ordered waiters k log) (hpc : pc t = .waitEnqueue) (hblocked : blocked t = false) :
    Sleeping (waiters ++ [(t, k)]) (update pc t (.waitRelease k))
      (update sema k (semaInit 0)) blocked (log ++ [.enqueued t k]) := by
  have hwaits : (pc t).waits = none := by rw [hpc]; rfl
  have hpending : ∀ u j, Pending (waiters ++ [(t, k)]) (update pc t (.waitRelease k)) u j ↔
      Pending waiters pc u j ∨ u = t ∧ j = k := by
    intro u j
    have htarget : (Pc.waitRelease k : Pc τ).target = (pc t).target := by rw [hpc]; rfl
    rw [pending_update htarget]
    simp only [Pending, mem_append, mem_singleton, Prod.mk.injEq]
    tauto
  -- an older entry belongs to another thread and has another number
  have hold : ∀ u j, (pc u).waits = some j → u ≠ t ∧ j ≠ k := by
    intro u j hw
    refine ⟨?_, (hordered.lt_entries (h.entry u j hw)).ne⟩
    rintro rfl
    rw [hwaits] at hw
    cases hw
  refine h.step hblocked (fun _ => id) ?_ ?_ (fun j hj => by cases hj) ?_ (by simp)
  · intro u j hp
    rcases (hpending u j).1 hp with hp | ⟨rfl, rfl⟩
    · obtain ⟨hw, hs⟩ := h.pending u j hp
      obtain ⟨hu, hj⟩ := hold u j hw
      rw [update_of_ne hu, update_of_ne hj]
      exact ⟨hw, hs⟩
    · rw [update_self, update_self, hblocked]
      exact ⟨rfl, rfl⟩
  · intro u j hw
    rw [hpending]
    by_cases hu : u = t
    · subst hu
      rw [update_self] at hw
      cases hw
      rw [enqueuedIn_append]
      exact ⟨mem_append_right _ mem_cons_self, .inl (.inr ⟨rfl, rfl⟩)⟩
    · rw [update_of_ne hu] at hw
      rw [update_of_ne (hold u j hw).2]
      exact (h.waiting_append hw _).imp_right fun hp => hp.imp_left .inl
  · intro u j hmem hp
    refine ((hpending u j).1 hp).resolve_right ?_
    rintro ⟨-, rfl⟩
    exact absurd (hordered.lt_entries hmem) (lt_irrefl j)

omit [DecidableEq τ] in
/-- A thread waits with a number of its own. -/
theorem Sleeping.waits_unique (h : Sleeping waiters pc sema blocked log)
    (hordered : Ordered waiters entries log) {v : τ} {j : Nat} (hu : (pc u).waits = some j)
    (hv : (pc v).waits = some j) : u = v :=
  hordered.thread_eq (h.entry u j hu) (h.entry v j hv)

/-- A thread whose semaphore has gone up takes the value. -/
theorem Sleeping.take (h : Sleeping waiters pc sema blocked log)
    (hordered : Ordered waiters entries log) (hpc : pc t = .waitDown k)
    (hvalue : (sema k).value ≠ 0) (x : Semaphore τ) :
    Sleeping waiters (update pc t (.waitAcquire k)) (update sema k x) blocked
      log := by
  have hwaits : (pc t).waits = some k := by rw [hpc]; rfl
  have htarget : (Pc.waitAcquire k : Pc τ).target = (pc t).target := by rw [hpc]; rfl
  obtain ⟨hreleased, -, hawake⟩ := (h.waiting t k hwaits).resolve_left fun hp =>
    hvalue (by rw [(h.pending t k hp).2])
  have hne : ∀ u j, Pending waiters pc u j → u ≠ t ∧ j ≠ k := by
    intro u j hp
    have hj : j ≠ k := by
      rintro rfl
      exact hvalue (by rw [(h.pending u j hp).2])
    refine ⟨?_, hj⟩
    rintro rfl
    rw [(h.pending u j hp).1] at hwaits
    exact hj (Option.some.inj hwaits)
  rw [← append_nil log]
  refine h.step hawake (fun _ => id) ?_ ?_ ?_ (fun u j _ => (pending_update htarget).1) (by simp)
  · intro u j hp
    rw [pending_update htarget] at hp
    obtain ⟨hu, hj⟩ := hne u j hp
    rw [update_of_ne hu, update_of_ne hj]
    exact h.pending u j hp
  · intro u j hw
    by_cases hu : u = t
    · subst hu
      rw [update_self] at hw
      cases hw
    · rw [update_of_ne hu] at hw
      have hj : j ≠ k := by
        rintro rfl
        exact hu (h.waits_unique hordered hw hwaits)
      rw [pending_update htarget, update_of_ne hj]
      exact h.waiting_append hw []
  · intro j hj
    cases hj
    exact hreleased.append []

/-- A thread whose semaphore has not gone up sleeps. -/
theorem Sleeping.sleep (h : Sleeping waiters pc sema blocked log)
    (hordered : Ordered waiters entries log) (hpc : pc t = .waitDown k)
    (hblocked : blocked t = false) (hvalue : (sema k).value = 0) :
    Sleeping waiters pc (update sema k { sema k with waiters := (sema k).waiters ++ [t] })
      (update blocked t true) log := by
  have hwaits : (pc t).waits = some k := by rw [hpc]; rfl
  have hpending : Pending waiters pc t k := (h.waiting t k hwaits).resolve_right fun hr => by
    rw [hr.2.1] at hvalue
    cases hvalue
  have hne : ∀ u j, (pc u).waits = some j → u ≠ t → j ≠ k := by
    rintro u j hw hu rfl
    exact hu (h.waits_unique hordered hw hwaits)
  refine ⟨?_, ?_, h.woken, ?_, h.upped, h.entry⟩
  · intro u j hp
    obtain ⟨hw, hs⟩ := h.pending u j hp
    refine ⟨hw, ?_⟩
    by_cases hu : u = t
    · subst hu
      rw [hwaits] at hw
      cases hw
      rw [update_self, update_self, hs, hblocked]
      rfl
    · rw [update_of_ne (hne u j hw hu), update_of_ne hu]
      exact hs
  · intro u j hw
    by_cases hu : u = t
    · subst hu
      rw [hwaits] at hw
      cases hw
      exact .inl hpending
    · rw [update_of_ne (hne u j hw hu), update_of_ne hu]
      exact h.waiting u j hw
  · intro u hu
    by_cases hut : u = t
    · rw [hut]
      exact ⟨k, hpc⟩
    · rw [update_of_ne hut] at hu
      exact h.asleep u hu

/-- The first entry is taken out of the queue. -/
theorem Sleeping.remove {kind : Kind} (h : Sleeping ((u, k) :: waiters) pc sema blocked log)
    (hpc : pc t = .pop c kind) (hblocked : blocked t = false) :
    Sleeping waiters (update pc t (.up c kind u k)) sema blocked
      (log ++ [.removed c u k]) := by
  -- the entry has changed hands, and nothing else is pending or is no more
  have hpending : ∀ v j, Pending waiters (update pc t (.up c kind u k)) v j ↔
      Pending ((u, k) :: waiters) pc v j := by
    intro v j
    have hothers : (∃ w, (update pc t (.up c kind u k) w).target = some (v, j)) ↔
        (v = u ∧ j = k) ∨ ∃ w, (pc w).target = some (v, j) := by
      constructor
      · rintro ⟨w, hw⟩
        by_cases hwt : w = t
        · rw [hwt, update_self] at hw
          cases hw
          exact .inl ⟨rfl, rfl⟩
        · rw [update_of_ne hwt] at hw
          exact .inr ⟨w, hw⟩
      · rintro (⟨rfl, rfl⟩ | ⟨w, hw⟩)
        · exact ⟨t, by rw [update_self]; rfl⟩
        · refine ⟨w, ?_⟩
          rw [update_of_ne]
          · exact hw
          · rintro rfl
            rw [hpc] at hw
            cases hw
    rw [Pending, hothers, Pending, mem_cons, Prod.mk.injEq]
    tauto
  have hwaits : ∀ v, (update pc t (.up c kind u k) v).waits = (pc v).waits :=
    update_same (g := Pc.waits) (by rw [hpc]; rfl)
  refine h.step hblocked (fun _ => id) ?_ ?_ (fun j hj => by cases hj)
    (fun v j _ => (hpending v j).1) (by simp)
  · intro v j hp
    rw [hwaits]
    exact h.pending v j ((hpending v j).1 hp)
  · intro v j hw
    rw [hwaits] at hw
    rw [hpending]
    exact h.waiting_append hw _

/-- The `sema_up` for the entry `k` of the thread `u`, which wakes the thread up if it sleeps. The
thread that makes it is the only one with an entry in its hands. -/
theorem Sleeping.up {kind : Kind} (h : Sleeping waiters pc sema blocked log)
    (hordered : Ordered waiters entries log) (hpc : pc t = .up c kind u k)
    (hp : p.waits = none ∧ p.target = none ∧ ∀ j, p ≠ .waitAcquire j) (hblocked : blocked t = false)
    (honly : ∀ v, (pc v).target ≠ none → v = t) (hout : (u, k) ∉ waiters)
    (hreleased : Released (log ++ l) u k) (hes : ∀ d v j, .upped d v j ∈ l → v = u ∧ j = k) :
    Sleeping waiters (update pc t p) (update sema k ⟨1, []⟩)
      (update blocked u false) (log ++ l) := by
  have htarget : (pc t).target = some (u, k) := by rw [hpc]; rfl
  have hwaitsU : (pc u).waits = some k := (h.pending u k (.inr ⟨t, htarget⟩)).1
  -- what is still pending is the entry of another thread, with its own semaphore
  have hpending : ∀ v j, Pending waiters (update pc t p) v j →
      Pending waiters pc v j ∧ (v ≠ u ∧ j ≠ k) := by
    intro v j hpend
    have hold : (v, j) ∈ waiters := by
      refine hpend.resolve_right ?_
      rintro ⟨w, hw⟩
      by_cases hwt : w = t
      · rw [hwt, update_self, hp.2.1] at hw
        cases hw
      · rw [update_of_ne hwt] at hw
        exact hwt (honly w (by rw [hw]; exact Option.some_ne_none _))
    have hw : (pc v).waits = some j := (h.pending v j (.inl hold)).1
    have hvu : v ≠ u := by
      rintro rfl
      rw [hwaitsU] at hw
      cases hw
      exact hout hold
    refine ⟨.inl hold, hvu, ?_⟩
    rintro rfl
    exact hvu (h.waits_unique hordered hw hwaitsU)
  have hwaits : ∀ v, (update pc t p v).waits = (pc v).waits :=
    update_same (g := Pc.waits) (by rw [hp.1, hpc]; rfl)
  refine h.step hblocked ?_ ?_ ?_ (fun j hj => absurd hj (hp.2.2 j))
    (fun v j _ hpend => (hpending v j hpend).1) ?_
  · intro v hv
    by_cases hvu : v = u
    · rw [hvu, update_self] at hv
      cases hv
    · rwa [update_of_ne hvu] at hv
  · intro v j hpend
    obtain ⟨hold, hv, hj⟩ := hpending v j hpend
    rw [hwaits, update_of_ne hj, update_of_ne hv]
    exact h.pending v j hold
  · intro v j hw
    rw [hwaits] at hw
    obtain ⟨hmem, hcases⟩ := h.waiting_append hw l
    refine ⟨hmem, ?_⟩
    by_cases hv : v = u
    · subst hv
      rw [hwaitsU] at hw
      cases hw
      exact .inr ⟨hreleased, update_self .., update_self ..⟩
    · have hj : j ≠ k := by
        rintro rfl
        exact hv (h.waits_unique hordered hw hwaitsU)
      rw [update_of_ne hj, update_of_ne hv]
      rcases hcases with (hmem | ⟨w, hw'⟩) | hr
      · exact .inl (.inl hmem)
      · have hwt : w = t := honly w (by rw [hw']; exact Option.some_ne_none _)
        rw [hwt, htarget] at hw'
        cases hw'
        exact absurd rfl hv
      · exact .inr hr
  · intro d v j he
    obtain ⟨rfl, rfl⟩ := hes d v j he
    exact ⟨h.entry v j hwaitsU, fun hpend => (hpending v j hpend).2.1 rfl⟩

end

/-! ## The calls -/

/-- The call that an event is about. -/
def Event.callId : Event τ → Option Nat
  | .called c _ _ _ | .removed c _ _ | .upped c _ _ | .finished c => some c
  | .enqueued _ _ | .returned _ _ => none

/-- How far a call has come, by the place of its thread, from what it has taken out of the queue,
what it has made go up and what is left in the queue. -/
def Going (kind : Kind) (removed upped waiters : List (τ × Nat)) : Pc τ → Prop
  | .loop _ => upped = removed
  | .test _ _ =>
    upped = removed ∧ (kind = .signal → removed = []) ∧ (kind = .broadcast → waiters ≠ [])
  | .pop _ _ => upped = removed ∧ (kind = .signal → removed = []) ∧ waiters ≠ []
  | .up _ _ t k => removed = upped ++ [(t, k)] ∧ (kind = .signal → upped = [])
  | _ => False

/-- A call that has not returned; `q` is the queue at the call and `b` the log since then. -/
structure Active (waiters : List (τ × Nat)) (pc : Pc τ) (c : Nat) (kind : Kind) (q : List (τ × Nat))
    (b : List (Event τ)) : Prop where
  call : pc.inCall = some (c, kind)
  unfinished : .finished c ∉ b
  queue : removedBy c b ++ waiters = q
  going : Going kind (removedBy c b) (uppedBy c b) waiters pc

/-- A call that has returned. -/
structure Done (pc : τ → Pc τ) (c : Nat) (kind : Kind) (q : List (τ × Nat)) (b : List (Event τ)) :
    Prop where
  left : ∀ v x, (pc v).inCall = some x → x.1 ≠ c
  removed : removedBy c b = kind.released q
  upped : uppedBy c b = kind.released q

structure Called (waiters : List (τ × Nat)) (pc : τ → Pc τ) (calls : Nat) (log : List (Event τ)) :
    Prop where
  calls : ∀ a c kind u q b, log = a ++ .called c kind u q :: b →
    q = waitingIn a ∧ c < calls ∧ (Active waiters (pc u) c kind q b ∨ Done pc c kind q b)
  inCall : ∀ u c kind, (pc u).inCall = some (c, kind) →
    ∃ a q b, log = a ++ .called c kind u q :: b

section
variable {waiters waiters' q : List (τ × Nat)} {pc : τ → Pc τ} {calls c : Nat} {kind : Kind}
  {log b es : List (Event τ)} {t : τ} {p : Pc τ}

omit [DecidableEq τ] in
/-- Events that are not about a call do not change what the call has done. -/
theorem unrelated (hes : ∀ e ∈ es, e.callId ≠ some c) :
    removedBy c (b ++ es) = removedBy c b ∧ uppedBy c (b ++ es) = uppedBy c b ∧
      (.finished c ∈ b ++ es ↔ .finished c ∈ b) := by
  refine ⟨?_, ?_, ?_⟩
  · rw [removedBy_append, append_right_eq_self, removedBy, filterMap_eq_nil_iff]
    intro e he
    have hid := hes e he
    cases e with
    | removed d u k =>
      have hd : d ≠ c := fun hd => hid (congrArg some hd)
      exact if_neg hd
    | _ => rfl
  · rw [uppedBy_append, append_right_eq_self, uppedBy, filterMap_eq_nil_iff]
    intro e he
    have hid := hes e he
    cases e with
    | upped d u k =>
      have hd : d ≠ c := fun hd => hid (congrArg some hd)
      exact if_neg hd
    | _ => rfl
  · rw [mem_append, or_iff_left]
    exact fun he => hes _ he rfl

omit [DecidableEq τ] in
theorem Active.append (h : Active waiters p c kind q b) (hes : ∀ e ∈ es, e.callId ≠ some c) :
    Active waiters p c kind q (b ++ es) := by
  obtain ⟨hr, hu, hf⟩ := unrelated (b := b) hes
  refine ⟨h.call, ?_, ?_, ?_⟩
  · rw [hf]
    exact h.unfinished
  · rw [hr]
    exact h.queue
  · rw [hr, hu]
    exact h.going

omit [DecidableEq τ] in
theorem Done.append {pc' : τ → Pc τ} (h : Done pc c kind q b) (hes : ∀ e ∈ es, e.callId ≠ some c)
    (hleft : ∀ v x, (pc' v).inCall = some x → x.1 ≠ c) : Done pc' c kind q (b ++ es) := by
  obtain ⟨hr, hu, -⟩ := unrelated (b := b) hes
  exact ⟨hleft, hr.trans h.removed, hu.trans h.upped⟩

omit [DecidableEq τ] in
/-- An event of a call that is not its start. -/
theorem called_not_mem (hes : ∀ e ∈ es, ∀ c kind u q, e ≠ .called c kind u q) {d : Nat} {k : Kind}
    {q : List (τ × Nat)} : (.called d k u q : Event τ) ∉ es :=
  fun hmem => hes _ hmem d k u q rfl

/-- A thread that is in no call goes on; the queue changes only when no thread is in a call. -/
theorem Called.move (h : Called waiters pc calls log) (hbefore : (pc t).inCall = none)
    (hafter : p.inCall = none) (hes : ∀ e ∈ es, e.callId = none)
    (hwaiters : ∀ u x, (pc u).inCall = some x → waiters' = waiters) :
    Called waiters' (update pc t p) calls (log ++ es) := by
  have hsame := update_same (g := Pc.inCall) (hafter.trans hbefore.symm)
  have hother : ∀ c : Nat, ∀ e ∈ es, e.callId ≠ some c := by
    intro c e he
    rw [hes e he]
    exact (Option.some_ne_none c).symm
  constructor
  · intro a c kind u q b hlog
    have hnew : (.called c kind u q : Event τ) ∉ es := fun hmem => by
      cases hes _ hmem
    obtain ⟨b', rfl, hlog'⟩ := append_split hnew hlog
    obtain ⟨hq, hc, hactive | hdone⟩ := h.calls a c kind u q b' hlog'
    · refine ⟨hq, hc, .inl ?_⟩
      have hut : u ≠ t := by
        rintro rfl
        rw [hactive.call] at hbefore
        cases hbefore
      rw [update_of_ne hut, hwaiters u _ hactive.call]
      exact hactive.append (hother c)
    · refine ⟨hq, hc, .inr (hdone.append (hother c) ?_)⟩
      intro v x hv
      rw [hsame] at hv
      exact hdone.left v x hv
  · intro u c kind hu
    rw [hsame] at hu
    obtain ⟨a, q, b, rfl⟩ := h.inCall u c kind hu
    exact ⟨a, q, b ++ es, by simp⟩

/-- A new call. No thread is in a call. -/
theorem Called.call (h : Called waiters pc calls log) (hnone : ∀ u, (pc u).inCall = none)
    (hwaiting : waiters = waitingIn log) (hp : p.inCall = some (calls, kind))
    (hgoing : Going kind [] [] waiters p) :
    Called waiters (update pc t p) (calls + 1) (log ++ [.called calls kind t waiters]) := by
  constructor
  · intro a c kind' u q b hlog
    rcases append_singleton_cases hlog with ⟨rfl, rfl, he⟩ | ⟨b', rfl, hlog'⟩
    · cases he
      refine ⟨hwaiting, Nat.lt_succ_self _, .inl ?_⟩
      rw [update_self]
      exact ⟨hp, not_mem_nil, rfl, hgoing⟩
    · obtain ⟨hq, hc, hactive | hdone⟩ := h.calls a c kind' u q b' hlog'
      · have hin := hactive.call
        rw [hnone] at hin
        cases hin
      · refine ⟨hq, Nat.lt_succ_of_lt hc, .inr (hdone.append ?_ ?_)⟩
        · intro e he hid
          rw [mem_singleton.1 he] at hid
          exact hc.ne (Option.some.inj hid).symm
        · intro v x hv
          by_cases hvt : v = t
          · rw [hvt, update_self, hp] at hv
            cases hv
            exact hc.ne'
          · rw [update_of_ne hvt, hnone] at hv
            cases hv
  · intro u c kind' hu
    by_cases hut : u = t
    · subst hut
      rw [update_self, hp] at hu
      cases hu
      exact ⟨log, waiters, [], rfl⟩
    · rw [update_of_ne hut, hnone] at hu
      cases hu

/-- The thread of the only call that is going on takes a step in it: the call goes on or returns. -/
theorem Called.advance (h : Called waiters pc calls log) (hin : (pc t).inCall = some (c, kind))
    (honly : ∀ v x, (pc v).inCall = some x → v = t)
    (hes : ∀ e ∈ es, e.callId = some c ∧ ∀ d k u q, e ≠ .called d k u q)
    (hcall : ∀ q b, Active waiters (pc t) c kind q b →
      Active waiters' p c kind q (b ++ es) ∨
        p.inCall = none ∧ removedBy c (b ++ es) = kind.released q ∧
          uppedBy c (b ++ es) = kind.released q) :
    Called waiters' (update pc t p) calls (log ++ es) := by
  have hin' : ∀ v x, (update pc t p v).inCall = some x → v = t ∧ p.inCall = some x := by
    intro v x hv
    by_cases hvt : v = t
    · rw [hvt, update_self] at hv
      exact ⟨hvt, hv⟩
    · rw [update_of_ne hvt] at hv
      exact absurd (honly v x hv) hvt
  have hsplit : ∀ {a d k u q b}, log ++ es = a ++ .called d k u q :: b →
      ∃ b', b = b' ++ es ∧ log = a ++ .called d k u q :: b' := by
    intro a d k u q b hlog
    exact append_split (called_not_mem fun e he => (hes e he).2) hlog
  -- the thread stays in its call or leaves it
  have hp : p.inCall = none ∨ p.inCall = some (c, kind) := by
    obtain ⟨a, q, b, hlog⟩ := h.inCall t c kind hin
    obtain ⟨-, -, hactive | hdone⟩ := h.calls a c kind t q b hlog
    · rcases hcall q b hactive with hactive' | ⟨hnone, -⟩
      · exact .inr hactive'.call
      · exact .inl hnone
    · exact absurd rfl (hdone.left t _ hin)
  constructor
  · intro a d kind' u q b hlog
    obtain ⟨b', rfl, hlog'⟩ := hsplit hlog
    obtain ⟨hq, hd, hactive | hdone⟩ := h.calls a d kind' u q b' hlog'
    · -- it is the call that takes the step
      have hut := honly u _ hactive.call
      subst hut
      have hcd := hactive.call
      rw [hin] at hcd
      cases hcd
      refine ⟨hq, hd, ?_⟩
      rcases hcall q b' hactive with hactive' | ⟨hnone, hr, hu⟩
      · rw [update_self]
        exact .inl hactive'
      · refine .inr ⟨?_, hr, hu⟩
        intro v x hv
        rw [(hin' v x hv).2] at hnone
        cases hnone
    · have hne : c ≠ d := hdone.left t _ hin
      refine ⟨hq, hd, .inr (hdone.append ?_ ?_)⟩
      · intro e he hid
        rw [(hes e he).1] at hid
        exact hne (Option.some.inj hid)
      · intro v x hv
        have hx := (hin' v x hv).2
        rcases hp with hp | hp
        · rw [hp] at hx
          cases hx
        · rw [hp] at hx
          cases hx
          exact hne
  · intro u d kind' hu
    obtain ⟨rfl, hpu⟩ := hin' u _ hu
    rcases hp with hp | hp
    · rw [hp] at hpu
      cases hpu
    · rw [hp] at hpu
      cases hpu
      obtain ⟨a, q, b, rfl⟩ := h.inCall u _ _ hin
      exact ⟨a, q, b ++ es, by simp⟩

end

end Pintos.Threads.Conditions
