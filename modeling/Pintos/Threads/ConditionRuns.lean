import Pintos.Threads.ConditionInvariant

/-!
# No signal is lost

Every step keeps the invariant (`inv_step`): one lemma for each step of `cond_wait`, `cond_signal`
and `cond_broadcast`. The other half is about progress. A thread in a call can always go on, the
steps it has before it become fewer with each step it takes, and the other threads do not change
them, as none of them can be inside at the same time.
-/

set_option autoImplicit false

namespace Pintos.Threads.Conditions

open Function Lib.Runs Synch Locks List

variable {τ : Type} [DecidableEq τ]

/-! ## Steps -/

structure Inv (s : CondState τ) : Prop where
  lock : LockInv s.lock
  ok : s.failed = false
  linked : ∀ t, Linked (s.lock.pc t) (s.pc t)
  ordered : Ordered s.waiters s.entries s.log
  sleeping : Sleeping s.waiters s.pc s.sema s.blocked s.log
  called : Called s.waiters s.pc s.calls s.log
  returned : ∀ a t k b, s.log = a ++ .returned t k :: b → Released a t k

variable {s s' : CondState τ} {t : τ} {u : τ} {p : Pc τ} {es : List (Event τ)} {k c : Nat}
  {kind : Kind} {a : Action} {l : LockState τ} {x : Nat × Kind} {waiters q : List (τ × Nat)}
  {pc : Pc τ} {b : List (Event τ)}

theorem inv_start : Inv (start : CondState τ) where
  lock := inv_lockStart
  ok := rfl
  linked := fun _ => trivial
  ordered := ⟨rfl, rfl⟩
  sleeping :=
    { pending := fun t k hp => by simp [Pending, start, Pc.target] at hp
      waiting := fun t k hw => by cases hw
      woken := fun t k hw => by cases hw
      asleep := fun t hb => by cases hb
      upped := fun c t k he => by simp [start] at he
      entry := fun t k hw => by cases hw }
  called :=
    { calls := fun a c kind u q b hlog => by simp [start] at hlog
      inCall := fun u c kind hu => by cases hu }
  returned := fun a t k b hlog => by simp [start] at hlog

section

variable (h : Inv s)
include h

/-- At most one thread is in the part of the code that reads and writes the queue. -/
theorem Inv.inside_unique {v : τ} (hu : (s.pc u).Inside = true) (hv : (s.pc v).Inside = true) :
    u = v := by
  refine h.lock.exclusive u v ?_ ?_
  · rw [(h.linked u).holding hu]
    rfl
  · rw [(h.linked v).holding hv]
    rfl

/-- A thread that has the lock and is not inside is alone. -/
theorem Inv.inCall_none (hpc : s.lock.pc t = .holding) (hin : (s.pc t).inCall = none) (u : τ) :
    (s.pc u).inCall = none := by
  rw [Option.eq_none_iff_forall_ne_some]
  intro x hx
  have hu := (h.linked u).holding (Pc.inside_of_inCall hx)
  have hut : u = t := h.lock.exclusive u t (by rw [hu]; rfl) (by rw [hpc]; rfl)
  rw [hut, hin] at hx
  cases hx

/-- The places of the threads when one of them has moved. -/
theorem Inv.linked_update (hothers : ∀ u, u ≠ t → l.pc u = s.lock.pc u) (ht : Linked (l.pc t) p)
    (u : τ) :
    Linked (l.pc u) (update s.pc t p u) := by
  by_cases hu : u = t
  · subst hu
    rw [update_self]
    exact ht
  · rw [update_of_ne hu, hothers u hu]
    exact h.linked u

/-- Events that are no return leave what is known of the returns. -/
theorem Inv.returned_append (hes : ∀ t k, .returned t k ∉ es) :
    ∀ a t k b, s.log ++ es = a ++ .returned t k :: b → Released a t k := by
  intro a u k b hlog
  obtain ⟨b', -, hlog'⟩ := append_split (hes u k) hlog
  exact h.returned a u k b' hlog'

/-- `lock_held_by_current_thread` in a thread that has the lock. -/
theorem Inv.heldBy (hpc : s.lock.pc t = .holding) : s.heldBy t = true := by
  have hholder : s.lock.lock.holder = some t := (h.lock.holder t).2 (by rw [hpc]; rfl)
  exact decide_eq_true hholder

variable (hblocked : s.blocked t = false)
include hblocked

/-- A thread that is in no call comes to another place where it is in none, with a step of the
lock. -/
theorem Inv.move (hl : LockInv l) (hothers : ∀ u, u ≠ t → l.pc u = s.lock.pc u)
    (hlinked : Linked (l.pc t) p) (hwaits : p.waits = (s.pc t).waits)
    (hwoken : ∀ j, p = .waitAcquire j → s.pc t = .waitAcquire j) (hbefore : (s.pc t).inCall = none)
    (hafter : p.inCall = none) : Inv ({ s with lock := l }.setPc t p) := by
  have htarget : p.target = (s.pc t).target := by
    have hnone : ∀ {r : Pc τ}, r.inCall = none → r.target = none := by
      intro r hr
      cases r <;> first | rfl | cases hr
    rw [hnone hbefore, hnone hafter]
  have hlog : s.log = s.log ++ [] := (append_nil _).symm
  refine ⟨hl, h.ok, h.linked_update hothers hlinked, h.ordered, ?_, ?_, h.returned⟩
  · rw [hlog]
    exact h.sleeping.move hwaits htarget hblocked hwoken fun _ _ _ => not_mem_nil
  · rw [hlog]
    exact h.called.move hbefore hafter (fun e he => absurd he not_mem_nil) fun _ _ _ => rfl

/-- The assertion of `cond_wait` holds. -/
theorem Inv.callWait (hpc : s.pc t = .out) (hlock : s.lock.pc t = .holding) :
    Inv (s.callWait t) := by
  rw [CondState.callWait, if_pos (h.heldBy hlock)]
  exact h.move (l := s.lock) hblocked h.lock (fun _ _ => rfl) hlock (by rw [hpc]; rfl)
    (fun _ hj => by cases hj) (by rw [hpc]; rfl) rfl

theorem Inv.call (hpc : s.pc t = .out) (hlock : s.lock.pc t = .holding) (kind : Kind) :
    Inv (s.call t kind) := by
  have hwaiting := h.ordered.waiters_eq
  have hnone := h.inCall_none hlock (by rw [hpc]; rfl)
  cases kind <;> refine ⟨h.lock, h.ok, h.linked_update (fun _ _ => rfl) hlock,
    h.ordered.append rfl rfl, h.sleeping.move (by rw [hpc]; rfl) (by rw [hpc]; rfl) hblocked
      (fun _ hj => by cases hj) (by simp),
    h.called.call hnone hwaiting rfl ?_, h.returned_append (by simp)⟩
  · exact ⟨rfl, fun _ => rfl, fun hk => by cases hk⟩
  · rfl

theorem Inv.enqueue (hpc : s.pc t = .waitEnqueue) : Inv (s.enqueue t) := by
  have hlock : s.lock.pc t = .holding := by
    have hlinked := h.linked t
    rw [hpc] at hlinked
    exact hlinked
  have hin : (s.pc t).inCall = none := by rw [hpc]; rfl
  refine ⟨h.lock, h.ok, h.linked_update (fun _ _ => rfl) (.inl hlock), h.ordered.enqueue t,
    h.sleeping.enqueue h.ordered hpc hblocked, ?_, h.returned_append (by simp)⟩
  refine h.called.move hin rfl (by simp [Event.callId]) ?_
  intro u x hu
  rw [h.inCall_none hlock hin u] at hu
  cases hu

/-- A step of `lock_release` in `cond_wait`. -/
theorem Inv.goRelease (hpc : s.pc t = .waitRelease k) (hfailed : s.lock.failed = none)
    (hs : s.goRelease t k = some s') : Inv s' := by
  obtain ⟨l, hlock, rfl⟩ := Option.map_eq_some_iff.1 hs
  have hlinked := h.linked t
  rw [hpc] at hlinked
  obtain ⟨hl, -, hothers, hcases⟩ := lockStep_inRelease h.lock hfailed hlinked hlock
  by_cases hout : l.pc t = .out
  · simp only [hout, if_true]
    exact h.move hblocked hl hothers hout (by rw [hpc]; rfl) (fun _ hj => by cases hj)
      (by rw [hpc]; rfl) rfl
  · simp only [hout, if_false]
    have hmove := h.move (p := .waitRelease k) hblocked hl hothers
      (.inr (or_assoc.2 hcases |>.resolve_right hout)) (by rw [hpc]) (fun _ hj => by cases hj)
      (by rw [hpc]; rfl) rfl
    rwa [CondState.setPc, ← hpc, update_eq_self] at hmove

/-- A pass through the loop of `sema_down` in `cond_wait`. -/
theorem Inv.goDown (hpc : s.pc t = .waitDown k) : Inv (s.goDown t k) := by
  have hlock : s.lock.pc t = .out := by
    have hlinked := h.linked t
    rw [hpc] at hlinked
    exact hlinked
  by_cases hz : (s.sema k).value = 0
  · simp only [CondState.goDown, Semaphore.down, if_pos hz]
    exact ⟨h.lock, h.ok, h.linked, h.ordered, h.sleeping.sleep h.ordered hpc hblocked hz, h.called,
      h.returned⟩
  · simp only [CondState.goDown, Semaphore.down, if_neg hz]
    refine ⟨h.lock, h.ok, h.linked_update (fun _ _ => rfl) (.inl hlock), h.ordered,
      h.sleeping.take h.ordered hpc hz _, ?_, h.returned⟩
    have hcalled : Called s.waiters (update s.pc t (.waitAcquire k)) s.calls
        (s.log ++ []) :=
      h.called.move (by rw [hpc]; rfl) rfl (fun e he => absurd he not_mem_nil) fun _ _ _ => rfl
    rwa [append_nil] at hcalled

/-- A step of `lock_acquire` in `cond_wait`. -/
theorem Inv.goAcquire (hpc : s.pc t = .waitAcquire k) (hfailed : s.lock.failed = none)
    (hs : s.goAcquire t k = some s') : Inv s' := by
  obtain ⟨l, hlock, rfl⟩ := Option.map_eq_some_iff.1 hs
  have hlinked := h.linked t
  rw [hpc] at hlinked
  obtain ⟨hl, -, hothers, hcases⟩ := lockStep_inAcquire h.lock hfailed hlinked hlock
  by_cases hholding : l.pc t = .holding
  · -- the return from `cond_wait`
    simp only [hholding, if_true]
    refine ⟨hl, h.ok, h.linked_update hothers trivial, h.ordered.append rfl rfl,
      h.sleeping.move (by rw [hpc]; rfl) (by rw [hpc]; rfl) hblocked (fun _ hj => by cases hj)
        (by simp),
      h.called.move (by rw [hpc]; rfl) rfl (by simp [Event.callId]) fun _ _ _ => rfl, ?_⟩
    intro a u j b hlog
    rcases append_singleton_cases hlog with ⟨-, rfl, he⟩ | ⟨b', -, hlog'⟩
    · cases he
      exact h.sleeping.woken t k hpc
    · exact h.returned a u j b' hlog'
  · simp only [hholding, if_false]
    have hplace : l.pc t = .out ∨ l.pc t = .acquiring ∨ l.pc t = .acquired := by
      rcases hcases with ⟨-, hself⟩ | ⟨-, hself⟩ | ⟨-, hself⟩
      · exact .inr (.inl hself)
      · exact .inr (.inr hself)
      · exact absurd hself hholding
    have hmove := h.move (p := .waitAcquire k) hblocked hl hothers hplace (by rw [hpc])
      (fun _ hj => by rw [hpc]; exact hj) (by rw [hpc]; rfl) rfl
    rwa [CondState.setPc, ← hpc, update_eq_self] at hmove

end

/-- The events at the end of `cond_signal`: a call of `cond_signal` itself returns. -/
def Kind.ending (c : Nat) : Kind → List (Event τ)
  | .signal => [.finished c]
  | .broadcast => []

/-- Where a thread is after `cond_signal`. -/
def Kind.after (c : Nat) : Kind → Pc τ
  | .signal => .out
  | .broadcast => .loop c

theorem signalled_eq (c : Nat) (kind : Kind) :
    s.signalled t c kind =
      { s with log := s.log ++ kind.ending c, pc := update s.pc t (kind.after c) } := by
  cases kind with
  | signal => rfl
  | broadcast =>
    rw [Kind.ending, append_nil]
    rfl

section

variable (h : Inv s)
include h

/-- The thread of a call is the only one in a call. -/
theorem Inv.inCall_unique (hin : (s.pc t).inCall = some x) (v : τ) (y : Nat × Kind)
    (hv : (s.pc v).inCall = some y) : v = t :=
  h.inside_unique (Pc.inside_of_inCall hv) (Pc.inside_of_inCall hin)

theorem Inv.holding_of_inCall (hin : (s.pc t).inCall = some x) :
    s.lock.pc t = .holding :=
  (h.linked t).holding (Pc.inside_of_inCall hin)

/-- What is known of the call that a thread is in. -/
theorem Inv.active (hin : (s.pc t).inCall = some (c, kind)) :
    ∃ a q b, s.log = a ++ .called c kind t q :: b ∧ q = waitingIn a ∧
      Active s.waiters (s.pc t) c kind q b := by
  obtain ⟨a, q, b, hlog⟩ := h.called.inCall t c kind hin
  obtain ⟨hq, -, hactive | hdone⟩ := h.called.calls a c kind t q b hlog
  · exact ⟨a, q, b, hlog, hq, hactive⟩
  · exact absurd rfl (hdone.left t _ hin)

/-- `sema_up` for an entry in the hands of a thread: the value was 0, and it is its thread that
sleeps there, if any does. -/
theorem Inv.goUp_eq (hpc : s.pc t = .up c kind u k) :
    s.goUp t c kind u k =
      { s with
        sema := update s.sema k ⟨1, []⟩
        blocked := update s.blocked u false
        log := s.log ++ .upped c u k :: kind.ending c
        pc := update s.pc t (kind.after c) } := by
  have hpending : Pending s.waiters s.pc u k := .inr ⟨t, by rw [hpc]; rfl⟩
  have hone : (0 + 1) % 2 ^ 32 = 1 := by norm_num
  cases hb : s.blocked u with
  | true =>
    have hsema : s.sema k = ⟨0, [u]⟩ := by
      rw [(h.sleeping.pending u k hpending).2, hb]
      rfl
    simp only [CondState.goUp, Semaphore.up, hsema, List.head?_cons, tail_cons, hone, hb,
      if_true, signalled_eq, CondState.emit, append_assoc, singleton_append]
  | false =>
    have hsema : s.sema k = ⟨0, []⟩ := by
      rw [(h.sleeping.pending u k hpending).2, hb]
      rfl
    have hsame : update s.blocked u false = s.blocked := by
      rw [← hb, update_eq_self]
    simp only [CondState.goUp, Semaphore.up, hsema, List.head?_nil, tail_nil, hone, hsame,
      signalled_eq, CondState.emit, append_assoc, singleton_append]

/-- What a thread does in a function of the condition variable, given the invariant: no assertion
fails. -/
inductive Goes (s : CondState τ) (t : τ) : CondState τ → Prop where
  | enqueue : s.pc t = .waitEnqueue → Goes s t (s.enqueue t)
  | release {k : Nat} {s' : CondState τ} : s.pc t = .waitRelease k → s.goRelease t k = some s' →
      Goes s t s'
  | down {k : Nat} : s.pc t = .waitDown k → Goes s t (s.goDown t k)
  | acquire {k : Nat} {s' : CondState τ} : s.pc t = .waitAcquire k → s.goAcquire t k = some s' →
      Goes s t s'
  | finish {c : Nat} : s.pc t = .loop c ∨ s.pc t = .test c .signal → s.waiters = [] →
      Goes s t ((s.emit (.finished c)).setPc t .out)
  | loop {c : Nat} : s.pc t = .loop c → s.waiters ≠ [] → Goes s t (s.setPc t (.test c .broadcast))
  | test {c : Nat} {kind : Kind} : s.pc t = .test c kind → s.waiters ≠ [] →
      Goes s t (s.setPc t (.pop c kind))
  | pop {c : Nat} {kind : Kind} {u : τ} {k : Nat} {rest : List (τ × Nat)} :
      s.pc t = .pop c kind → s.waiters = (u, k) :: rest →
      Goes s t (({ s with waiters := rest }.emit (.removed c u k)).setPc t (.up c kind u k))
  | up {c : Nat} {kind : Kind} {u : τ} {k : Nat} : s.pc t = .up c kind u k →
      Goes s t { s with
        sema := update s.sema k ⟨1, []⟩
        blocked := update s.blocked u false
        log := s.log ++ .upped c u k :: kind.ending c
        pc := update s.pc t (kind.after c) }

theorem Inv.goes (hs : s.go t = some s') : Goes s t s' := by
  rw [CondState.go] at hs
  cases hpc : s.pc t with
  | out =>
    rw [hpc] at hs
    cases hs
  | waitEnqueue =>
    rw [hpc] at hs
    cases hs
    exact .enqueue hpc
  | waitRelease k =>
    rw [hpc] at hs
    exact .release hpc hs
  | waitDown k =>
    rw [hpc] at hs
    cases hs
    exact .down hpc
  | waitAcquire k =>
    rw [hpc] at hs
    exact .acquire hpc hs
  | loop c =>
    rw [hpc] at hs
    cases hw : s.waiters with
    | nil =>
      simp only [hw, Option.some.injEq] at hs
      exact hs ▸ .finish (.inl hpc) hw
    | cons e rest =>
      simp only [hw, Option.some.injEq] at hs
      exact hs ▸ .loop hpc (by simp [hw])
  | test c kind =>
    have hin : (s.pc t).inCall = some (c, kind) := by rw [hpc]; rfl
    obtain ⟨_, _, _, _, _, hactive⟩ := h.active hin
    have hgoing := hactive.going
    rw [hpc] at hs hgoing
    simp only [h.heldBy (h.holding_of_inCall hin), if_true] at hs
    cases hw : s.waiters with
    | nil =>
      simp only [hw, Option.some.injEq] at hs
      cases kind with
      | signal => exact hs ▸ .finish (.inr hpc) hw
      -- `cond_broadcast` calls `cond_signal` only when the queue is not empty
      | broadcast => exact absurd hw (hgoing.2.2 rfl)
    | cons e rest =>
      simp only [hw, Option.some.injEq] at hs
      exact hs ▸ .test hpc (by simp [hw])
  | pop c kind =>
    obtain ⟨_, _, _, _, _, hactive⟩ := h.active (t := t) (by rw [hpc]; rfl)
    have hgoing := hactive.going
    rw [hpc] at hs hgoing
    cases hw : s.waiters with
    | nil => exact absurd hw hgoing.2.2
    | cons e rest =>
      simp only [hw, Option.some.injEq] at hs
      exact hs ▸ .pop hpc hw
  | up c kind u k =>
    rw [hpc] at hs
    cases hs
    rw [h.goUp_eq hpc]
    exact .up hpc

variable (hblocked : s.blocked t = false)
include hblocked

/-- A test in a call: the thread goes on, or the call returns, with the queue as it is. -/
theorem Inv.tested (hin : (s.pc t).inCall = some (c, kind)) (htarget : (s.pc t).target = none)
    (hp : p.inCall = some (c, kind) ∧ p.target = none ∧ es = [] ∨ p = .out ∧ es = [.finished c])
    (hcall : ∀ q b, Active s.waiters (s.pc t) c kind q b →
      Active s.waiters p c kind q (b ++ es) ∨
        p.inCall = none ∧ removedBy c (b ++ es) = kind.released q ∧
          uppedBy c (b ++ es) = kind.released q) :
    Inv { s with log := s.log ++ es, pc := update s.pc t p } := by
  have hlock := h.holding_of_inCall hin
  have hnoWait : ∀ {r : Pc τ}, r.inCall ≠ none → r.waits = none ∧ ∀ j, r ≠ .waitAcquire j := by
    intro r hr
    cases r <;> first | exact absurd rfl hr | exact ⟨rfl, fun _ hj => by cases hj⟩
  have hwaits : (s.pc t).waits = none := (hnoWait (by rw [hin]; exact Option.some_ne_none _)).1
  have hfacts : p.waits = none ∧ p.target = none ∧ (∀ j, p ≠ .waitAcquire j) ∧
      Linked (s.lock.pc t) p := by
    rcases hp with ⟨hcall', htarget', -⟩ | ⟨rfl, -⟩
    · obtain ⟨hw, ha⟩ := hnoWait (r := p) (by rw [hcall']; exact Option.some_ne_none _)
      refine ⟨hw, htarget', ha, ?_⟩
      cases p <;> first | exact hlock | cases hcall'
    · exact ⟨rfl, rfl, (fun _ hj => by cases hj), trivial⟩
  have hes : es = [] ∨ es = [.finished c] := hp.imp (fun hc => hc.2.2) fun ho => ho.2
  refine ⟨h.lock, h.ok, h.linked_update (fun _ _ => rfl) hfacts.2.2.2, h.ordered.append ?_ ?_,
    h.sleeping.move ?_ ?_ hblocked (fun j hj => absurd hj (hfacts.2.2.1 j)) ?_,
    h.called.advance hin (h.inCall_unique hin) ?_ hcall, h.returned_append ?_⟩
  · rcases hes with rfl | rfl <;> rfl
  · rcases hes with rfl | rfl <;> rfl
  · rw [hfacts.1, hwaits]
  · rw [hfacts.2.1, htarget]
  · rcases hes with rfl | rfl <;> simp
  · rcases hes with rfl | rfl <;> simp [Event.callId]
  · rcases hes with rfl | rfl <;> simp

/-- A call ends with an empty queue. -/
theorem Inv.finish (hpc : s.pc t = .loop c ∨ s.pc t = .test c .signal) (hw : s.waiters = []) :
    Inv ((s.emit (.finished c)).setPc t .out) := by
  rcases hpc with hpc | hpc
  · have hin : (s.pc t).inCall = some (c, .broadcast) := by rw [hpc]; rfl
    refine h.tested hblocked hin (by rw [hpc]; rfl) (.inr ⟨rfl, rfl⟩) ?_
    intro q b hactive
    have hqueue := hactive.queue
    have hgoing := hactive.going
    rw [hpc] at hgoing
    rw [hw, append_nil] at hqueue
    refine .inr ⟨rfl, ?_, ?_⟩
    · rw [removedBy_append, hqueue]
      exact append_nil q
    · rw [uppedBy_append, show uppedBy c b = q from hgoing.trans hqueue]
      exact append_nil q
  · have hin : (s.pc t).inCall = some (c, .signal) := by rw [hpc]; rfl
    refine h.tested hblocked hin (by rw [hpc]; rfl) (.inr ⟨rfl, rfl⟩) ?_
    intro q b hactive
    have hqueue := hactive.queue
    obtain ⟨hupped, hremoved, -⟩ : _ ∧ _ ∧ _ := by
      have hgoing := hactive.going
      rwa [hpc] at hgoing
    rw [hremoved rfl, hw] at hqueue
    rw [hremoved rfl] at hupped
    rw [removedBy_append, uppedBy_append, hremoved rfl, hupped, ← hqueue]
    exact .inr ⟨rfl, rfl, rfl⟩

/-- A call goes on when the queue is not empty. -/
theorem Inv.goOn (hin : (s.pc t).inCall = some (c, kind)) (htarget : (s.pc t).target = none)
    (hp : p.inCall = some (c, kind) ∧ p.target = none)
    (hgoing : ∀ removed upped, Going kind removed upped s.waiters (s.pc t) →
      Going kind removed upped s.waiters p) : Inv (s.setPc t p) := by
  have htested := h.tested hblocked hin htarget (.inl ⟨hp.1, hp.2, rfl⟩) ?_
  · rwa [append_nil] at htested
  · intro q b hactive
    rw [append_nil]
    exact .inl ⟨hp.1, hactive.unfinished, hactive.queue, hgoing _ _ hactive.going⟩

/-- `list_pop_front` in `cond_signal`. -/
theorem Inv.goPop {rest : List (τ × Nat)} (hpc : s.pc t = .pop c kind)
    (hw : s.waiters = (u, k) :: rest) :
    Inv (({ s with waiters := rest }.emit (.removed c u k)).setPc t (.up c kind u k)) := by
  have hin : (s.pc t).inCall = some (c, kind) := by rw [hpc]; rfl
  have hlock := h.holding_of_inCall hin
  have hordered := h.ordered
  have hsleeping := h.sleeping
  rw [hw] at hordered hsleeping
  refine ⟨h.lock, h.ok, h.linked_update (fun _ _ => rfl) hlock, hordered.remove,
    hsleeping.remove hpc hblocked, ?_, h.returned_append (by simp)⟩
  refine h.called.advance hin (h.inCall_unique hin) (by simp [Event.callId]) ?_
  intro q b hactive
  obtain ⟨hupped, hfirst, -⟩ : _ ∧ _ ∧ _ := by
    have hgoing := hactive.going
    rwa [hpc] at hgoing
  have hqueue := hactive.queue
  rw [hw] at hqueue
  have hremoved : removedBy c (b ++ [.removed c u k]) = removedBy c b ++ [(u, k)] := by
    simp [removedBy]
  have hsame : uppedBy c (b ++ [.removed c u k]) = uppedBy c b := by
    rw [uppedBy_append]
    exact append_nil _
  refine .inl ⟨rfl, ?_, ?_, ?_⟩
  · rw [mem_append, or_iff_left (by simp)]
    exact hactive.unfinished
  · rw [hremoved, append_assoc]
    exact hqueue
  · rw [hremoved, hsame, hupped]
    exact ⟨rfl, hfirst⟩

/-- `sema_up` in `cond_signal`. -/
theorem Inv.goUp (hpc : s.pc t = .up c kind u k) :
    Inv { s with
      sema := update s.sema k ⟨1, []⟩
      blocked := update s.blocked u false
      log := s.log ++ .upped c u k :: kind.ending c
      pc := update s.pc t (kind.after c) } := by
  have hin : (s.pc t).inCall = some (c, kind) := by rw [hpc]; rfl
  have hlock := h.holding_of_inCall hin
  -- the entry was in the queue when the call was made, and the call has taken it out
  obtain ⟨a, q, b, hlog, hq, hactive⟩ := h.active hin
  have hremoved : (u, k) ∈ removedBy c b := by
    have hgoing := hactive.going
    rw [hpc] at hgoing
    rw [hgoing.1]
    exact mem_append_right _ (mem_singleton_self _)
  have hremovedLog : .removed c u k ∈ s.log := by
    rw [hlog]
    exact mem_append_right a (mem_cons_of_mem _ (mem_removedBy.1 hremoved))
  have hout : (u, k) ∉ s.waiters :=
    disjoint_of_nodup_append h.ordered.nodup (mem_removedIn hremovedLog)
  have henqueued : .enqueued u k ∈ a := by
    have hmem : (u, k) ∈ q := by
      rw [← hactive.queue]
      exact mem_append_left _ hremoved
    rw [hq] at hmem
    exact mem_enqueuedIn.1 (mem_filter.1 hmem).1
  have hreleased : Released (s.log ++ .upped c u k :: kind.ending c) u k := by
    refine ⟨a, c, kind, t, q, b ++ .upped c u k :: kind.ending c, by rw [hlog]; simp, henqueued, ?_,
      mem_append_right b mem_cons_self⟩
    exact mem_append_left _ (mem_removedBy.1 hremoved)
  have hafter : Linked (s.lock.pc t) (kind.after c : Pc τ) ∧
      ((kind.after c : Pc τ).waits = none ∧ (kind.after c : Pc τ).target = none ∧
        ∀ j, (kind.after c : Pc τ) ≠ .waitAcquire j) := by
    cases kind with
    | signal => exact ⟨trivial, rfl, rfl, fun _ hj => by cases hj⟩
    | broadcast => exact ⟨hlock, rfl, rfl, fun _ hj => by cases hj⟩
  have hending : ∀ e ∈ (kind.ending c : List (Event τ)), e = .finished c := by
    cases kind <;> simp [Kind.ending]
  refine ⟨h.lock, h.ok, h.linked_update (fun _ _ => rfl) hafter.1, h.ordered.append ?_ ?_,
    h.sleeping.up h.ordered hpc hafter.2 hblocked ?_ hout hreleased ?_,
    h.called.advance hin (h.inCall_unique hin) ?_ ?_, h.returned_append ?_⟩
  · cases kind <;> rfl
  · cases kind <;> rfl
  · intro v hv
    obtain ⟨x, hx⟩ := Option.ne_none_iff_exists'.1 hv
    exact h.inside_unique (Pc.inside_of_target hx) (Pc.inside_of_inCall hin)
  · intro d v j he
    rcases mem_cons.1 he with he | he
    · cases he
      exact ⟨rfl, rfl⟩
    · cases hending _ he
  · intro e he
    rcases mem_cons.1 he with rfl | he
    · exact ⟨rfl, fun _ _ _ _ he' => by cases he'⟩
    · rw [hending e he]
      exact ⟨rfl, fun _ _ _ _ he' => by cases he'⟩
  · intro q b hactive
    obtain ⟨hlast, hfirst⟩ : _ ∧ _ := by
      have hgoing := hactive.going
      rwa [hpc] at hgoing
    have hr : removedBy c (b ++ .upped c u k :: kind.ending c) = removedBy c b := by
      rw [removedBy_append]
      cases kind <;> exact append_nil _
    have hu : uppedBy c (b ++ .upped c u k :: kind.ending c) = removedBy c b := by
      rw [uppedBy_append, hlast]
      cases kind <;> simp [uppedBy, Kind.ending]
    cases kind with
    | signal =>
      have hqueue := hactive.queue
      rw [hlast, hfirst rfl] at hqueue
      have htake : removedBy c b = q.take 1 := by
        rw [hlast, hfirst rfl, ← hqueue]
        rfl
      exact .inr ⟨rfl, hr.trans htake, hu.trans htake⟩
    | broadcast =>
      refine .inl ⟨rfl, ?_, ?_, ?_⟩
      · have hnot := hactive.unfinished
        simpa [Kind.ending] using hnot
      · rw [hr]
        exact hactive.queue
      · rw [hr, hu]
        rfl
  · intro v j he
    rcases mem_cons.1 he with he | he
    · cases he
    · cases hending _ he

theorem Goes.inv (hfailed : s.lock.failed = none) (hgo : Goes s t s') : Inv s' := by
  cases hgo with
  | enqueue hpc => exact h.enqueue hblocked hpc
  | release hpc hs => exact h.goRelease hblocked hpc hfailed hs
  | down hpc => exact h.goDown hblocked hpc
  | acquire hpc hs => exact h.goAcquire hblocked hpc hfailed hs
  | finish hpc hw => exact h.finish hblocked hpc hw
  | @loop c hpc hw =>
    refine h.goOn hblocked (c := c) (by rw [hpc]; rfl) (by rw [hpc]; rfl) ⟨rfl, rfl⟩ ?_
    intro removed upped hgoing
    rw [hpc] at hgoing
    exact ⟨hgoing, (fun hk => by cases hk), fun _ => hw⟩
  | @test c kind hpc hw =>
    refine h.goOn hblocked (c := c) (by rw [hpc]; rfl) (by rw [hpc]; rfl) ⟨rfl, rfl⟩ ?_
    intro removed upped hgoing
    rw [hpc] at hgoing
    exact ⟨hgoing.1, hgoing.2.1, hw⟩
  | pop hpc hw => exact h.goPop hblocked hpc hw
  | up hpc => exact h.goUp hblocked hpc

end

/-- What a step is. -/
theorem step_cases (hs : step s (t, a) = some s') :
    s.lock.failed = none ∧ s.blocked t = false ∧
      ((∃ m l, a = .lock m ∧ s.pc t = .out ∧ lockStep s.lock (t, m) = some l ∧
          s' = { s with lock := l }) ∨
        (a = .wait ∧ s.pc t = .out ∧ s.lock.pc t = .holding ∧ s' = s.callWait t) ∨
        (∃ kind, a = .call kind ∧ s.pc t = .out ∧ s.lock.pc t = .holding ∧ s' = s.call t kind) ∨
        a = .go ∧ s.go t = some s') := by
  simp only [step] at hs
  by_cases hruns : s.failed = true ∨ s.lock.failed ≠ none ∨ s.blocked t = true
  · rw [if_pos hruns] at hs
    cases hs
  · rw [if_neg hruns] at hs
    obtain ⟨-, hlock, hblocked⟩ := not_or.1 hruns |>.imp_right not_or.1
    refine ⟨not_not.1 hlock, Bool.eq_false_iff.2 hblocked, ?_⟩
    cases a with
    | lock m =>
      by_cases hpc : s.pc t = .out
      · simp only [hpc, if_true] at hs
        obtain ⟨l, hl, rfl⟩ := Option.map_eq_some_iff.1 hs
        exact .inl ⟨m, l, rfl, hpc, hl, rfl⟩
      · simp only [hpc, if_false, reduceCtorEq] at hs
    | wait =>
      by_cases hpc : s.pc t = .out ∧ s.lock.pc t = .holding
      · simp only [hpc, and_self, if_true, Option.some.injEq] at hs
        exact .inr (.inl ⟨rfl, hpc.1, hpc.2, hs.symm⟩)
      · simp only [hpc, if_false, reduceCtorEq] at hs
    | call kind =>
      by_cases hpc : s.pc t = .out ∧ s.lock.pc t = .holding
      · simp only [hpc, and_self, if_true, Option.some.injEq] at hs
        exact .inr (.inr (.inl ⟨kind, rfl, hpc.1, hpc.2, hs.symm⟩))
      · simp only [hpc, if_false, reduceCtorEq] at hs
    | go => exact .inr (.inr (.inr ⟨rfl, hs⟩))

theorem inv_step (h : Inv s) (hs : step s (t, a) = some s') : Inv s' := by
  obtain ⟨hfailed, hblocked, ⟨m, l, -, hpc, hl, rfl⟩ | ⟨-, hpc, hlock, rfl⟩ |
    ⟨kind, -, hpc, hlock, rfl⟩ | ⟨-, hgo⟩⟩ := step_cases hs
  · have hmove := h.move (p := .out) hblocked (lockStep_inv h.lock hl)
      (fun u hu => lockStep_others h.lock hl hu) trivial (by rw [hpc]) (fun _ hj => by cases hj)
      (by rw [hpc]; rfl) rfl
    rwa [CondState.setPc, ← hpc, update_eq_self] at hmove
  · exact h.callWait hblocked hpc hlock
  · exact h.call hblocked hpc hlock kind
  · exact (h.goes hgo).inv h hblocked hfailed

/-! ## What a step leaves as it is -/

/-- The log grows, and a return is recorded by the thread that then has the lock; the other threads
stay where they are, and the queue is changed only from inside. -/
structure Frame (s s' : CondState τ) (t : τ) : Prop where
  log : ∃ es, s'.log = s.log ++ es ∧ ∀ u k, .returned u k ∈ es → u = t ∧ s'.lock.pc t = .holding
  others : ∀ u, u ≠ t → s'.pc u = s.pc u
  waiters : (s.pc t).Inside = false → s'.waiters = s.waiters

/-- A step that changes the place of the thread and the log. -/
theorem frame_of_eq (hlog : s'.log = s.log ++ es) (hes : ∀ u k, .returned u k ∉ es)
    (hpc : s'.pc = update s.pc t p)
    (hwaiters : (s.pc t).Inside = false → s'.waiters = s.waiters) : Frame s s' t where
  log := ⟨es, hlog, fun u k he => absurd he (hes u k)⟩
  others := fun u hu => by rw [hpc, update_of_ne hu]
  waiters := hwaiters

omit [DecidableEq τ] in
/-- A step that leaves the log, the places and the queue. -/
theorem frame_of_same (hlog : s'.log = s.log) (hpc : s'.pc = s.pc)
    (hwaiters : s'.waiters = s.waiters) : Frame s s' t where
  log := ⟨[], by rw [hlog, append_nil], fun u k he => absurd he not_mem_nil⟩
  others := fun u _ => by rw [hpc]
  waiters := fun _ => hwaiters

theorem Goes.frame (hgo : Goes s t s') : Frame s s' t := by
  cases hgo with
  | enqueue hpc => exact frame_of_eq rfl (by simp) rfl fun hin => by rw [hpc] at hin; cases hin
  | release hpc hs =>
    obtain ⟨l, -, rfl⟩ := Option.map_eq_some_iff.1 hs
    by_cases hout : l.pc t = .out
    · simp only [hout, if_true]
      exact frame_of_eq (append_nil _).symm (fun _ _ => not_mem_nil) rfl fun _ => rfl
    · simp only [hout, if_false]
      exact frame_of_same rfl rfl rfl
  | @down k hpc =>
    by_cases hz : (s.sema k).value = 0
    · simp only [CondState.goDown, Semaphore.down, if_pos hz]
      exact frame_of_same rfl rfl rfl
    · simp only [CondState.goDown, Semaphore.down, if_neg hz]
      exact frame_of_eq (append_nil _).symm (fun _ _ => not_mem_nil) rfl fun _ => rfl
  | @acquire k _ hpc hs =>
    obtain ⟨l, -, rfl⟩ := Option.map_eq_some_iff.1 hs
    by_cases hholding : l.pc t = .holding
    · simp only [hholding, if_true]
      refine ⟨⟨[.returned t k], rfl, ?_⟩, fun u hu => update_of_ne hu .., fun _ => rfl⟩
      intro u j he
      cases mem_singleton.1 he
      exact ⟨rfl, hholding⟩
    · simp only [hholding, if_false]
      exact frame_of_same rfl rfl rfl
  | finish => exact frame_of_eq rfl (by simp) rfl fun _ => rfl
  | loop => exact frame_of_eq (append_nil _).symm (fun _ _ => not_mem_nil) rfl fun _ => rfl
  | test => exact frame_of_eq (append_nil _).symm (fun _ _ => not_mem_nil) rfl fun _ => rfl
  | pop hpc => exact frame_of_eq rfl (by simp) rfl fun hin => by rw [hpc] at hin; cases hin
  | @up _ kind =>
    exact frame_of_eq rfl (by cases kind <;> simp [Kind.ending]) rfl fun _ => rfl

theorem frame_step (h : Inv s) (hs : step s (t, a) = some s') : Frame s s' t := by
  obtain ⟨-, -, ⟨m, l, -, -, -, rfl⟩ | ⟨-, -, hlock, rfl⟩ | ⟨kind, -, -, -, rfl⟩ | ⟨-, hgo⟩⟩ :=
    step_cases hs
  · exact frame_of_same rfl rfl rfl
  · rw [CondState.callWait, if_pos (h.heldBy hlock)]
    exact frame_of_eq (append_nil _).symm (fun _ _ => not_mem_nil) rfl fun _ => rfl
  · exact frame_of_eq rfl (by simp) rfl fun _ => rfl
  · exact (h.goes hgo).frame

/-! ## A call returns -/

/-- The steps that a thread has before it in its call, with `n` entries in the queue. -/
def stepsLeft (n : Nat) : Pc τ → Nat
  | .loop _ => 4 * n + 1
  | .test _ .broadcast => 4 * n
  | .pop _ .broadcast => 4 * n - 1
  | .up _ .broadcast _ _ => 4 * n + 2
  | .test _ .signal => 3
  | .pop _ .signal => 2
  | .up _ .signal _ _ => 1
  | _ => 0

omit [DecidableEq τ] in
theorem stepsLeft_le (n : Nat) (pc : Pc τ) : stepsLeft n pc ≤ 4 * n + 3 := by
  cases pc with
  | test c kind => cases kind <;> simp only [stepsLeft] <;> omega
  | pop c kind => cases kind <;> simp only [stepsLeft] <;> omega
  | up c kind t k => cases kind <;> simp only [stepsLeft] <;> omega
  | _ =>
    simp only [stepsLeft]
    omega

omit [DecidableEq τ] in
/-- A thread in a call has a step before it. -/
theorem Active.stepsLeft_pos (h : Active waiters pc c kind q b) :
    0 < stepsLeft waiters.length pc := by
  have hcall := h.call
  have hgoing := h.going
  cases pc with
  | loop d => exact Nat.succ_pos _
  | test d kind' =>
    cases kind' with
    | signal => exact Nat.succ_pos _
    | broadcast =>
      cases hcall
      have hpos := length_pos_of_ne_nil (hgoing.2.2 rfl)
      simp only [stepsLeft]
      omega
  | pop d kind' =>
    cases kind' with
    | signal => exact Nat.succ_pos _
    | broadcast =>
      have hpos := length_pos_of_ne_nil hgoing.2.2
      simp only [stepsLeft]
      omega
  | up d kind' t k => cases kind' <;> exact Nat.succ_pos _
  | _ => cases hcall

/-- A thread in a call can go on, and each of its steps brings it nearer to the end of the call. -/
theorem Inv.progress (h : Inv s) (hin : (s.pc t).inCall = some (c, kind)) (hs : s.go t = some s') :
    .finished c ∈ s'.log ∨ (s'.pc t).inCall = some (c, kind) ∧
      stepsLeft s'.waiters.length (s'.pc t) < stepsLeft s.waiters.length (s.pc t) := by
  cases h.goes hs with
  | finish hpc hw =>
    rcases hpc with hpc | hpc <;> rw [hpc] at hin <;> cases hin <;>
      exact .inl (mem_append_right _ (mem_singleton_self _))
  | loop hpc hw =>
    rw [hpc] at hin ⊢
    cases hin
    simp only [CondState.setPc, update_self]
    exact .inr ⟨rfl, Nat.lt_succ_self _⟩
  | test hpc hw =>
    rw [hpc] at hin ⊢
    cases hin
    simp only [CondState.setPc, update_self]
    have hpos := length_pos_of_ne_nil hw
    refine .inr ⟨rfl, ?_⟩
    cases kind <;> simp only [stepsLeft] <;> omega
  | pop hpc hw =>
    rw [hpc] at hin ⊢
    cases hin
    simp only [CondState.setPc, CondState.emit, update_self, hw]
    refine .inr ⟨rfl, ?_⟩
    cases kind <;> simp only [stepsLeft, length_cons] <;> omega
  | up hpc =>
    rw [hpc] at hin ⊢
    cases hin
    cases kind with
    | signal => exact .inl (mem_append_right _ (by simp [Kind.ending]))
    | broadcast =>
      simp only [update_self]
      exact .inr ⟨rfl, Nat.lt_succ_self _⟩
  | _ hpc =>
    rw [hpc] at hin
    cases hin

/-- A thread in a call is never stopped. -/
theorem Inv.go_enabled (h : Inv s) (hin : (s.pc t).inCall = some (c, kind))
    (hfailed : s.lock.failed = none) : ∃ s', step s (t, .go) = some s' := by
  have hawake : s.blocked t = false := by
    rw [Bool.eq_false_iff]
    intro hb
    obtain ⟨k, hpc⟩ := h.sleeping.asleep t hb
    rw [hpc] at hin
    cases hin
  have hruns : ¬(s.failed = true ∨ s.lock.failed ≠ none ∨ s.blocked t = true) := by
    simp [h.ok, hfailed, hawake]
  have hheld := h.heldBy (h.holding_of_inCall hin)
  simp only [step, if_neg hruns]
  cases hpc : s.pc t with
  | loop d =>
    rw [CondState.go, hpc]
    cases hw : s.waiters <;> exact ⟨_, rfl⟩
  | test d kind' =>
    rw [CondState.go, hpc]
    simp only [hheld, if_true]
    cases hw : s.waiters <;> exact ⟨_, rfl⟩
  | pop d kind' =>
    rw [CondState.go, hpc]
    cases hw : s.waiters <;> exact ⟨_, rfl⟩
  | up d kind' u k =>
    rw [CondState.go, hpc]
    exact ⟨_, rfl⟩
  | _ =>
    rw [hpc] at hin
    cases hin

/-- The log of a run goes on from the log at its start. -/
theorem run_log {l : List (τ × Action)} (h : Inv s) (hrun : run step s l = some s') :
    ∃ es, s'.log = s.log ++ es := by
  refine run_relation (P := fun _ => True) (I := Inv) (R := fun s s' => ∃ es, s'.log = s.log ++ es)
    (fun s => ⟨[], (append_nil _).symm⟩) ?_ ?_ (fun _ _ => trivial) h hrun
  · rintro s₁ s₂ s₃ ⟨es₁, h₁⟩ ⟨es₂, h₂⟩
    exact ⟨es₁ ++ es₂, by rw [h₂, h₁, append_assoc]⟩
  · rintro s₁ ⟨u, a⟩ s₂ - hi hs
    obtain ⟨es, hlog, -⟩ := (frame_step hi hs).log
    exact ⟨inv_step hi hs, es, hlog⟩

/-- A call has returned once its thread has taken the steps it had before it, whatever the other
threads do in between. -/
theorem Inv.returns {l : List (τ × Action)} (h : Inv s) (hin : (s.pc t).inCall = some (c, kind))
    (hrun : run step s l = some s')
    (hsteps : stepsLeft s.waiters.length (s.pc t) ≤ l.count (t, .go)) : .finished c ∈ s'.log := by
  -- along the run, as long as the call goes on: the steps left are at most the steps to come
  induction l generalizing s with
  | nil =>
    obtain ⟨_, _, _, _, _, hactive⟩ := h.active hin
    exact absurd hactive.stepsLeft_pos (by rw [count_nil] at hsteps; omega)
  | cons x l ih =>
    obtain ⟨u, a⟩ := x
    obtain ⟨s₁, hs, hrest⟩ := run_cons_iff.1 hrun
    have hframe := frame_step h hs
    by_cases hu : u = t
    · subst hu
      obtain ⟨-, -, ⟨m, l, -, hpc, -⟩ | ⟨-, hpc, -⟩ | ⟨kind', -, hpc, -⟩ | ⟨rfl, hgo⟩⟩ :=
        step_cases hs
      · rw [hpc] at hin
        cases hin
      · rw [hpc] at hin
        cases hin
      · rw [hpc] at hin
        cases hin
      · rw [count_cons_self] at hsteps
        rcases h.progress hin hgo with hfinished | ⟨hin', hless⟩
        · obtain ⟨es, hlog⟩ := run_log (inv_step h hs) hrest
          rw [hlog]
          exact mem_append_left es hfinished
        · exact ih (inv_step h hs) hin' hrest (by omega)
    · -- another thread is not inside, so the queue stays as it is
      have houtside : (s.pc u).Inside = false := by
        rw [Bool.eq_false_iff]
        exact fun hins => hu (h.inside_unique hins (Pc.inside_of_inCall hin))
      have hcount : ((u, a) :: l).count (t, .go) = l.count (t, .go) :=
        count_cons_of_ne fun he => hu (congrArg Prod.fst he)
      have hpc : s₁.pc t = s.pc t := hframe.others t fun he => hu he.symm
      refine ih (inv_step h hs) (by rw [hpc]; exact hin) hrest ?_
      rw [hpc, hframe.waiters houtside, ← hcount]
      exact hsteps

/-! ## No signal is lost -/

omit [DecidableEq τ] in
/-- What a call has taken out so far is the start of what it is to release. -/
theorem Active.removed_start (h : Active waiters pc c kind q b) :
    removedBy c b <+: kind.released q ∧ uppedBy c b <+: removedBy c b := by
  have hqueue := h.queue
  have hcall := h.call
  have hgoing := h.going
  cases kind with
  | broadcast =>
    refine ⟨⟨waiters, hqueue⟩, ?_⟩
    cases pc with
    | loop d => exact (show uppedBy c b = removedBy c b from hgoing) ▸ prefix_rfl
    | test d kind' => exact hgoing.1 ▸ prefix_rfl
    | pop d kind' => exact hgoing.1 ▸ prefix_rfl
    | up d kind' t k => exact ⟨[(t, k)], hgoing.1.symm⟩
    | _ => cases hcall
  | signal =>
    cases pc with
    | test d kind' =>
      rw [hgoing.1, hgoing.2.1 rfl]
      exact ⟨ nil_prefix, nil_prefix⟩
    | pop d kind' =>
      rw [hgoing.1, hgoing.2.1 rfl]
      exact ⟨ nil_prefix, nil_prefix⟩
    | up d kind' t k =>
      rw [hgoing.1, hgoing.2 rfl] at hqueue ⊢
      rw [← hqueue]
      exact ⟨prefix_rfl, nil_prefix⟩
    | _ => cases hcall

/-- No signal is lost. In every state that is reached:
* the queue at a call of `cond_signal` or `cond_broadcast` is the entries that were made and not
  taken out, the oldest first; what the call takes out and makes go up is a beginning of what it is
  to release, and when it has returned it has released exactly the oldest entry, or all of them;
* no entry is taken out twice;
* a thread returns from `cond_wait` only after a call that came after its entry has taken the entry
  out, and it then holds the lock;
* a thread whose entry was released and that has not passed its `sema_down` finds the value 1 there
  and does not sleep, be it before or in the `sema_down`;
* a thread in a call can always go on and returns after a bounded number of its own steps. -/
theorem no_signal_lost (l : List (τ × Action)) (s : CondState τ)
    (hrun : run step start l = some s) : s.failed = false ∧
    (∀ a c kind u q b, s.log = a ++ .called c kind u q :: b →
      q = waitingIn a ∧ removedBy c b <+: kind.released q ∧ uppedBy c b <+: removedBy c b ∧
        (.finished c ∈ b → removedBy c b = kind.released q ∧ uppedBy c b = kind.released q)) ∧
    (removedIn s.log).Nodup ∧
    (∀ a t k b, s.log = a ++ .returned t k :: b → Released a t k) ∧
    (∀ x s', step s x = some s' → ∀ t k, s'.log = s.log ++ [.returned t k] →
      s'.lock.lock.holder = some t) ∧
    (∀ c t k, .upped c t k ∈ s.log → (s.pc t).waits = some k →
      (s.sema k).value = 1 ∧ s.blocked t = false) ∧
    ∀ u c kind, (s.pc u).inCall = some (c, kind) →
      (s.lock.failed = none → ∃ s', step s (u, .go) = some s') ∧
      ∀ l' s', run step s l' = some s' → 4 * s.waiters.length + 3 ≤ l'.count (u, .go) →
        .finished c ∈ s'.log := by
  have h : Inv s :=
    run_invariant (P := fun _ => True) (fun _ _ _ _ hi hs => inv_step hi hs) (fun _ _ => trivial)
      inv_start hrun
  refine ⟨h.ok, ?_, h.ordered.nodup.of_append_left, h.returned, ?_, ?_, ?_⟩
  · intro a c kind u q b hlog
    obtain ⟨hq, -, hactive | hdone⟩ := h.called.calls a c kind u q b hlog
    · obtain ⟨hr, hu⟩ := hactive.removed_start
      exact ⟨hq, hr, hu, fun hf => absurd hf hactive.unfinished⟩
    · rw [hdone.removed, hdone.upped]
      exact ⟨hq, prefix_rfl, prefix_rfl, fun _ => ⟨rfl, rfl⟩⟩
  · rintro ⟨v, a⟩ s' hs t k hlog
    obtain ⟨es, hes, hreturned⟩ := (frame_step h hs).log
    obtain ⟨rfl, hpc⟩ := hreturned t k (by
      rw [append_cancel_left (hes.symm.trans hlog)]
      exact mem_singleton_self _)
    exact ((inv_step h hs).lock.holder t).2 (by rw [hpc]; rfl)
  · intro c t k hupped hwaits
    obtain ⟨-, hsema, hawake⟩ :=
      (h.sleeping.waiting t k hwaits).resolve_left (h.sleeping.upped c t k hupped).2
    exact ⟨by rw [hsema], hawake⟩
  · intro u c kind hin
    refine ⟨h.go_enabled hin, fun l' s' hrun' hsteps => ?_⟩
    exact h.returns hin hrun' ((stepsLeft_le _ _).trans hsteps)

/-- The signal comes between the `lock_release` of the waiter and its `sema_down`, and the waiter
returns. -/
theorem no_signal_lost_window :
    ∃ s : CondState Bool, run step start
      [(true, .lock .acquire), (true, .lock .go), (true, .lock .go), (true, .wait), (true, .go),
        (true, .go), (true, .go), (true, .go),
        (false, .lock .acquire), (false, .lock .go), (false, .lock .go), (false, .call .signal),
        (false, .go), (false, .go), (false, .go),
        (false, .lock .release), (false, .lock .go), (false, .lock .go),
        (true, .go), (true, .go), (true, .go), (true, .go)] = some s ∧
      s.log = [.enqueued true 0, .called 0 .signal false [(true, 0)], .removed 0 true 0,
        .upped 0 true 0, .finished 0, .returned true 0] ∧
      Released [.enqueued true 0, .called 0 .signal false [(true, 0)], .removed 0 true 0,
        .upped 0 true 0, .finished 0] true 0 := by
  refine exists_end (p := fun s => s.log = [.enqueued true 0, .called 0 .signal false [(true, 0)],
    .removed 0 true 0, .upped 0 true 0, .finished 0, .returned true 0]) (by decide +kernel) ?_
  intro s hs hlog
  obtain ⟨-, -, -, hreturned, -⟩ := no_signal_lost _ s hs
  exact ⟨hlog, hreturned _ true 0 [] hlog⟩

end Pintos.Threads.Conditions
