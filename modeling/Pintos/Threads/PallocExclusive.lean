import Pintos.Lib.Runs
import Pintos.Threads.PallocPreemption

/-!
# Exclusive pages

Every step of every thread keeps the invariant `Inv`, one lemma per kind of step: a request takes
the lock, tests and sets bits and releases the lock; the return of a range tests and clears bits.
Bits are set only by the thread that holds the lock, and only for pages without an owner; bits are
cleared only by the owner of the page. So what a search has found clear stays clear until it sets
the bits, and what a return has found set stays set until it clears the bits.
-/

set_option autoImplicit false

namespace Pintos.Threads.PallocPreemption

open Function Lib.Runs
open LibKernel (Bitmap bitmapError)
open Vaddr Palloc

variable {τ : Type} [DecidableEq τ] {P : Pools} {init : Pool → Bitmap} {s s' : State τ} {t : τ}
  {pool : Pool} {cnt idx j : Nat} {r : Range}

/-! ## Threads that go on -/

section SetPc

variable (s t)

@[simp] theorem setPc_pc_self (pc : Pc) : (s.setPc t pc).pc t = pc := update_self ..

theorem setPc_pc_of_ne {u : τ} (hu : u ≠ t) (pc : Pc) : (s.setPc t pc).pc u = s.pc u :=
  update_of_ne hu ..

/-- The claims after a thread has gone on. -/
theorem owns_setPc (pc : Pc) (c : Claimant τ) (p : Pool) (i : Nat) :
    Owns init (s.setPc t pc) c p i ↔
      (c = .thread t ∧ pc.Claims p i) ∨ (c ≠ .thread t ∧ Owns init s c p i) := by
  by_cases hc : c = .thread t
  · subst hc
    simp [Owns]
  · cases c with
    | thread u =>
      have hu : u ≠ t := fun h => hc (by rw [h])
      simp only [Owns, setPc_pc_of_ne s t hu]
      exact ⟨fun h => .inr ⟨hc, h⟩, fun h => (h.resolve_left fun h' => hc h'.1).2⟩
    | initial => exact ⟨fun h => .inr ⟨hc, h⟩, fun h => (h.resolve_left fun h' => hc h'.1).2⟩
    | ticket k => exact ⟨fun h => .inr ⟨hc, h⟩, fun h => (h.resolve_left fun h' => hc h'.1).2⟩

variable {s t} {pc : Pc}

/-- Who holds the locks after a thread has gone on. -/
theorem lock_setPc {lock : Pool → Option τ} (hself : ∀ p, lock p = some t ↔ pc.Holds p)
    (hothers : ∀ p u, u ≠ t → (lock p = some u ↔ (s.pc u).Holds p)) (p : Pool) (u : τ) :
    lock p = some u ↔ ((s.setPc t pc).pc u).Holds p := by
  by_cases hu : u = t
  · rw [hu, setPc_pc_self]
    exact hself p
  · rw [setPc_pc_of_ne s t hu]
    exact hothers p u hu

theorem pcOk_setPc (hself : PcOk P s' pc) (hothers : ∀ u, u ≠ t → PcOk P s' (s.pc u)) (u : τ) :
    PcOk P s' ((s.setPc t pc).pc u) := by
  by_cases hu : u = t
  · rw [hu, setPc_pc_self]
    exact hself
  · rw [setPc_pc_of_ne s t hu]
    exact hothers u hu

end SetPc

section

variable (h : Inv P init s)
include h

/-- A thread goes on without changing what it owns or holds. -/
theorem Inv.move {pc : Pc} (hpc : PcOk P s pc)
    (hclaims : ∀ p i, pc.Claims p i ↔ (s.pc t).Claims p i)
    (hholds : ∀ p, pc.Holds p ↔ (s.pc t).Holds p) : Inv P init (s.setPc t pc) where
  ok := h.ok
  size := h.size
  exact := by
    refine h.exact.same rfl fun c p i => ?_
    rw [owns_setPc, hclaims]
    by_cases hc : c = .thread t
    · rw [hc]
      simp [Owns]
    · simp [hc]
  lock := lock_setPc (fun p => (h.lock p t).trans (hholds p).symm) fun p u _ => h.lock p u
  pcs := fun u => (pcOk_congr rfl _).2 (pcOk_setPc hpc (fun u _ => h.pcs u) u)
  grants := h.grants

/-! ## Requests -/

theorem Inv.acquire (hpc : s.pc t = .acquire pool cnt) (hfree : s.lock pool = none) :
    Inv P init ({ s with lock := update s.lock pool (some t) }.setPc t
      (scanFrom (s.used pool).bitCnt pool cnt 0)) := by
  rw [h.size]
  refine ⟨h.ok, h.size, ?_, lock_setPc ?_ ?_,
    pcOk_setPc (scanFrom_ok _ pool cnt 0) fun u _ => h.pcs u, h.grants⟩
  · refine h.exact.same rfl fun c p i => ?_
    rw [owns_setPc]
    by_cases hc : c = .thread t
    · have hclaims : ¬ Owns init s c p i := by
        rw [hc, owns_thread hpc]
        exact id
      simp [hc, scanFrom_claims]
      rw [hc] at hclaims
      exact hclaims
    · simp only [hc, false_and, false_or, ne_eq, not_false_eq_true, true_and]
      rfl
  · intro p
    rw [scanFrom_holds]
    by_cases hp : p = pool
    · rw [hp]
      simp [State.setPc]
    · have hnot : ¬ s.lock p = some t := by
        rw [h.lock p t, hpc]
        exact id
      simp [State.setPc, hp, hnot, Ne.symm hp]
  · intro p u hu
    change update s.lock pool (some t) p = some u ↔ (s.pc u).Holds p
    rw [← h.lock p u]
    by_cases hp : p = pool
    · rw [hp, update_self, hfree]
      simp [Ne.symm hu]
    · rw [update_of_ne hp]

/-- A thread writes the bit of a page that belongs to nobody else. -/
theorem Inv.writeBit {x : Nat} {v : Bool} {pc : Pc} (hx : x < P.bitCnt pool)
    (halone : ∀ c, c ≠ .thread t → ¬ Owns init s c pool x)
    (hclaims : ∀ p i, pc.Claims p i ↔ if p = pool ∧ i = x then v = true else (s.pc t).Claims p i)
    (hholds : ∀ p, (s.pc t).Holds p ↔ pc.Holds p) (hpc : PcOk P (s.setBit pool x v) pc)
    (hothers : v = true → ∀ u, u ≠ t → ¬ (s.pc u).Holds pool) :
    Inv P init ((s.setBit pool x v).setPc t pc) := by
  have hx' : x < (s.used pool).bitCnt := (h.size pool).symm ▸ hx
  have howns : ∀ c p i, Owns init ((s.setBit pool x v).setPc t pc) c p i ↔
      if p = pool ∧ i = x then v = true ∧ c = .thread t else Owns init s c p i := by
    intro c p i
    rw [owns_setPc, hclaims]
    by_cases hc : c = .thread t
    · by_cases hpi : p = pool ∧ i = x
      · simp [hc, hpi]
      · simp [hc, hpi, Owns]
    · have hsame : Owns init (s.setBit pool x v) c p i ↔ Owns init s c p i := by cases c <;> rfl
      rw [hsame]
      by_cases hpi : p = pool ∧ i = x
      · simp [hc, hpi, halone c hc]
      · simp [hc, hpi]
  refine ⟨h.ok, fun p => (setBit_size pool _ v p).trans (h.size p), ⟨?_, ?_⟩,
    lock_setPc (fun p => (h.lock p t).trans (hholds p)) fun p u _ => h.lock p u,
    fun u => (pcOk_congr rfl _).2 (pcOk_setPc hpc (fun u hu =>
      pcOk_setBit hx' (h.pcs u) fun hv => hothers hv u hu) u), h.grants⟩
  · intro p i hi
    change ((s.setBit pool x v).used p).test i = true ↔ _
    simp only [setBit_test hx', howns]
    by_cases hpi : p = pool ∧ i = x
    · simp [hpi]
    · rw [if_neg hpi, h.exact.bits p i hi]
      simp only [if_neg hpi]
  · intro p i c c' hi hc hc'
    rw [howns] at hc hc'
    by_cases hpi : p = pool ∧ i = x
    · rw [if_pos hpi] at hc hc'
      rw [hc.2, hc'.2]
    · rw [if_neg hpi] at hc hc'
      exact h.exact.unique p i c c' hi hc hc'

/-- One bit is set by the thread that holds the lock. -/
theorem Inv.flipBit (hpc : s.pc t = .flip pool cnt idx j) (hj : j < cnt) :
    Inv P init ((s.setBit pool (idx + j) true).setPc t (.flip pool cnt idx (j + 1))) := by
  have hok := h.pcs t
  rw [hpc] at hok
  obtain ⟨herr, hbound, -, hclear⟩ := hok
  refine h.writeBit (by omega) ?_ ?_ (fun p => by rw [hpc]; rfl) ?_ ?_
  · intro c _ hc
    have hset := (h.exact.bits pool (idx + j) (by omega)).2 ⟨c, hc⟩
    rw [hclear j le_rfl hj] at hset
    cases hset
  · intro p i
    rw [hpc]
    simp only [Pc.Claims]
    split_ifs with hpi
    · exact iff_of_true ⟨hpi.1.symm, by omega, by omega⟩ trivial
    · refine and_congr_right fun hp => ?_
      have hi : i ≠ idx + j := fun hi => hpi ⟨hp.symm, hi⟩
      omega
  · refine ⟨herr, hbound, hj, fun k hk₁ hk₂ => ?_⟩
    rw [setBit_test (by rw [h.size]; omega), if_neg (by omega)]
    exact hclear k (by omega) hk₂
  · intro _ u hu hholds
    have hut := (h.lock pool u).2 hholds
    have htt : s.lock pool = some t := (h.lock pool t).2 (by rw [hpc]; rfl)
    rw [htt, Option.some.injEq] at hut
    exact hu hut.symm

/-- The lock is free again, and nobody else was using it. -/
theorem Inv.unlocked (hpc : s.pc t = .release pool cnt idx) (p : Pool) (u : τ) :
    update s.lock pool none p = some u ↔ ((s.setPc t .idle).pc u).Holds p := by
  have hmine : ∀ q, s.lock q = some t ↔ pool = q := by
    intro q
    rw [h.lock q t, hpc]
    rfl
  refine lock_setPc (fun p => ?_) (fun p u hu => ?_) p u
  · by_cases hp : p = pool
    · rw [hp, update_self]
      exact ⟨fun e => (Option.some_ne_none _ e.symm).elim, False.elim⟩
    · rw [update_of_ne hp, hmine]
      exact ⟨fun e => hp e.symm, False.elim⟩
  · rw [← h.lock p u]
    by_cases hp : p = pool
    · rw [hp, update_self, (hmine pool).2 rfl, Option.some.injEq]
      exact ⟨fun e => (Option.some_ne_none _ e.symm).elim, fun e => absurd e.symm hu⟩
    · rw [update_of_ne hp]

/-- A thread that has no pages any more leaves its call. -/
theorem pcOk_setPc_idle (u : τ) : PcOk P s ((s.setPc t .idle).pc u) :=
  pcOk_setPc (show PcOk P s .idle from trivial) (fun u _ => h.pcs u) u

theorem Inv.releaseError (hpc : s.pc t = .release pool cnt bitmapError) :
    Inv P init ({ s with lock := update s.lock pool none }.setPc t .idle) := by
  refine ⟨h.ok, h.size, ?_, h.unlocked hpc, fun u => (pcOk_congr rfl _).2 (pcOk_setPc_idle h u),
    h.grants⟩
  refine h.exact.same rfl fun c p i => ?_
  rw [owns_setPc]
  by_cases hc : c = .thread t
  · rw [hc, owns_thread hpc]
    simp [Pc.Claims]
  · simp only [hc, false_and, false_or, ne_eq, not_false_eq_true, true_and]
    cases c <;> rfl

theorem Inv.release (hpc : s.pc t = .release pool cnt idx) (hidx : idx ≠ bitmapError) :
    Inv P init (({ s with lock := update s.lock pool none }.setPc t .idle).grant
      ⟨t, ⟨pool, idx, cnt⟩, some (s.request t)⟩) := by
  have hok := h.pcs t
  rw [hpc] at hok
  refine ⟨h.ok, h.size, ?_, h.unlocked hpc, fun u => (pcOk_congr rfl _).2 (pcOk_setPc_idle h u),
    grants_grant (hok hidx) h.grants⟩
  · -- the pages of the call become those of the new range
    refine h.exact.handOver (a := .thread t) (b := .ticket s.next) rfl h.next_unused ?_ ?_ ?_
    · intro p i
      rw [owns_grant, owns_grant, owns_setPc, owns_thread hpc]
      simp [Pc.Claims, Range.Has, hidx, State.setPc]
    · intro p i ht
      rw [owns_grant, owns_setPc] at ht
      simp [Pc.Claims] at ht
    · intro c p i hct hck
      rw [owns_grant, owns_setPc]
      simp only [State.setPc, hct, hck, false_and, false_or, ne_eq, not_false_eq_true, true_and]
      cases c <;> rfl

end

/-! ## Returns -/

theorem pageFromPool_iff (hin : r.idx + r.cnt ≤ P.bitCnt r.pool) (hcnt : 0 < r.cnt) (q : Pool) :
    pageFromPool P q (P.base r.pool + 4096 * r.idx) = true ↔ q = r.pool := by
  rw [pageFromPool, Bool.and_eq_true, decide_eq_true_eq, decide_eq_true_eq]
  constructor
  · rintro ⟨hle, hlt⟩
    by_contra hne
    rcases P.disjoint q r.pool hne with hd | hd <;> omega
  · intro hqr
    subst hqr
    omega

/-- The return of a range finds its pool and its place in it. -/
theorem freeMultiple_eq (s : State τ) (t : τ) (hin : r.idx + r.cnt ≤ P.bitCnt r.pool) :
    freeMultiple P s t (P.base r.pool + 4096 * r.idx) r.cnt =
      if r.cnt = 0 then s else s.setPc t (.check r 0) := by
  have hr := P.aligned r.pool
  have hpos := P.pos r.pool
  have hofs : ¬ pgOfs (P.base r.pool + 4096 * r.idx) ≠ 0 := by
    rw [pgOfs_eq]
    omega
  rw [freeMultiple, if_neg hofs]
  by_cases hcnt : r.cnt = 0
  · rw [if_pos (.inr hcnt), if_pos hcnt]
  · have hidx : (P.base r.pool + 4096 * r.idx) / 4096 - P.base r.pool / 4096 = r.idx := by
      omega
    have hfrom := pageFromPool_iff hin (pos_of_ne_zero hcnt)
    rw [if_neg (by omega), if_neg hcnt]
    obtain ⟨pool, idx, cnt⟩ := r
    cases pool with
    | kernel => rw [if_pos ((hfrom .kernel).2 rfl), hidx]
    | user =>
      rw [if_neg fun h => Pool.noConfusion ((hfrom .kernel).1 h),
        if_pos ((hfrom .user).2 rfl), hidx]

/-- The pages of a range become those of the call that returns them. -/
theorem Inv.free (h : Inv P init s) {k : Nat} {g : Grant τ} (hg : s.grants k = some g)
    (hpc : s.pc t = .idle) : Inv P init ((s.setGrant k none).setPc t (.check g.range 0)) := by
  refine ⟨h.ok, h.size, ?_, lock_setPc (fun p => ?_) fun p u _ => h.lock p u,
    pcOk_setPc ⟨(h.grants k g hg).2, Nat.zero_le _⟩ fun u _ => h.pcs u,
    h.grants_setGrant hg fun x hx => by cases hx⟩
  · refine h.exact.handOver (a := .ticket k) (b := .thread t) rfl ?_ ?_ ?_ ?_
    · intro p i
      rw [owns_thread hpc]
      exact id
    · intro p i
      rw [owns_setPc, owns_setPc, owns_setGrant]
      simp [Owns, hg, Pc.Claims]
    · intro p i hk
      rw [owns_setPc, owns_setGrant] at hk
      simp at hk
    · intro c p i hck hct
      rw [owns_setPc, owns_setGrant]
      simp [hck, hct]
  · have hold := h.lock p t
    rw [hpc] at hold
    exact hold

/-- One bit is cleared by the thread that returns its page. -/
theorem Inv.clearBit (h : Inv P init s) (hpc : s.pc t = .clear r j) (hj : j < r.cnt) :
    Inv P init ((s.setBit r.pool (r.idx + j) false).setPc t (.clear r (j + 1))) := by
  have hok := h.pcs t
  rw [hpc] at hok
  obtain ⟨hbound, -⟩ := hok
  have hmine : Owns init s (.thread t) r.pool (r.idx + j) := by
    rw [owns_thread hpc]
    exact ⟨rfl, le_rfl, by omega⟩
  refine h.writeBit (by omega) ?_ ?_ (fun p => by rw [hpc]; rfl) ⟨hbound, hj⟩ fun hv => by cases hv
  · -- the page has one owner, and that is the thread
    exact fun c hc hown => hc (h.exact.unique _ _ _ _ (by omega) hown hmine)
  · intro p i
    rw [hpc]
    simp only [Pc.Claims]
    split_ifs with hpi
    · exact iff_of_false (fun hc => by omega) id
    · refine and_congr_right fun hp => ?_
      have hi : i ≠ r.idx + j := fun hi => hpi ⟨hp.symm, hi⟩
      omega

/-! ## Steps and runs -/

theorem rangeOk_of_le {p : Pool} {start : Nat} (h : start + cnt ≤ P.bitCnt p) :
    rangeOk (P.bitCnt p) start cnt = true := by
  have htop := P.top p
  have hlt : start + cnt < 2 ^ 64 := by omega
  rw [rangeOk, Nat.mod_eq_of_lt hlt, Bool.and_eq_true, decide_eq_true_eq, decide_eq_true_eq]
  omega

theorem advance_scan (h : Inv P init s) {i : Nat} (hpc : s.pc t = .scan pool cnt i j)
    (hs : advance s t = some s') : Inv P init s' := by
  have hok := h.pcs t
  rw [hpc] at hok
  obtain ⟨hbound, hj, hclear⟩ := hok
  have hmove : ∀ {pc : Pc}, PcOk P s pc → (∀ p k, ¬ pc.Claims p k) →
      (∀ p, pc.Holds p ↔ pool = p) → Inv P init (s.setPc t pc) := by
    intro pc hpcOk hclaims hholds
    refine h.move hpcOk (fun p k => ?_) fun p => ?_
    · rw [hpc]
      exact ⟨fun hc => hclaims p k hc, False.elim⟩
    · rw [hpc]
      exact hholds p
  simp only [advance, hpc, h.size, rangeOk_of_le hbound, Bool.not_true, Bool.false_eq_true,
    if_false] at hs
  by_cases hlt : j < cnt
  · rw [if_pos hlt, if_neg (by omega)] at hs
    cases htest : (s.used pool).test (i + j) with
    | true =>
      rw [htest, if_pos rfl, Option.some.injEq] at hs
      rw [← hs]
      exact hmove (scanFrom_ok s pool cnt (i + 1)) (scanFrom_claims _ _ _ _)
        (scanFrom_holds _ _ _ _)
    | false =>
      rw [htest, if_neg Bool.false_ne_true, Option.some.injEq] at hs
      rw [← hs]
      refine hmove ⟨hbound, hlt, fun k hk => ?_⟩ (fun _ _ => id) fun _ => Iff.rfl
      by_cases hkj : k = j
      · rw [hkj, htest]
      · exact hclear k (by omega)
  · rw [if_neg hlt, Option.some.injEq] at hs
    rw [← hs]
    by_cases hi : i ≠ bitmapError
    · rw [if_pos hi]
      refine hmove ⟨hi, hbound, Nat.zero_le _, fun k _ hk => hclear k (by omega)⟩ ?_
        fun _ => Iff.rfl
      rintro p k ⟨-, h1, h2⟩
      omega
    · rw [if_neg hi]
      exact hmove (fun hne => absurd hne hi) (fun p k hc => hi hc.1) fun _ => Iff.rfl

theorem advance_flip (h : Inv P init s) (hpc : s.pc t = .flip pool cnt idx j)
    (hs : advance s t = some s') : Inv P init s' := by
  have hok := h.pcs t
  rw [hpc] at hok
  obtain ⟨herr, hbound, hj, -⟩ := hok
  simp only [advance, hpc, h.size, rangeOk_of_le hbound, Bool.not_true, Bool.false_eq_true,
    if_false] at hs
  by_cases hlt : j < cnt
  · rw [if_pos hlt, if_neg (by omega), Option.some.injEq] at hs
    rw [← hs]
    exact h.flipBit hpc hlt
  · rw [if_neg hlt, Option.some.injEq] at hs
    rw [← hs]
    have hjc : j = cnt := by omega
    refine h.move (fun _ => hbound) (fun p k => ?_) fun p => ?_
    · rw [hpc, hjc]
      exact ⟨fun hc => hc.2, fun hc => ⟨herr, hc⟩⟩
    · rw [hpc]
      rfl

theorem advance_check (h : Inv P init s) (hpc : s.pc t = .check r j) (hs : advance s t = some s') :
    Inv P init s' := by
  have hok := h.pcs t
  rw [hpc] at hok
  obtain ⟨hbound, hj⟩ := hok
  simp only [advance, hpc, h.size, rangeOk_of_le hbound, Bool.not_true, Bool.false_eq_true,
    if_false] at hs
  by_cases hlt : j < r.cnt
  · -- the thread owns the page, so its bit is set whatever other threads do
    have hset : (s.used r.pool).test (r.idx + j) = true :=
      (h.exact.bits r.pool (r.idx + j) (by omega)).2
        ⟨.thread t, (owns_thread hpc _ _).2 ⟨rfl, by omega, by omega⟩⟩
    rw [if_pos hlt, if_neg (by omega), hset, if_pos rfl, Option.some.injEq] at hs
    rw [← hs]
    refine h.move ⟨hbound, hlt⟩ (fun p k => ?_) fun p => ?_ <;> rw [hpc] <;> rfl
  · rw [if_neg hlt, Option.some.injEq] at hs
    rw [← hs]
    refine h.move ⟨hbound, Nat.zero_le _⟩ (fun p k => ?_) fun p => ?_ <;> rw [hpc] <;> rfl

theorem advance_clear (h : Inv P init s) (hpc : s.pc t = .clear r j) (hs : advance s t = some s') :
    Inv P init s' := by
  have hok := h.pcs t
  rw [hpc] at hok
  obtain ⟨hbound, hj⟩ := hok
  simp only [advance, hpc, h.size, rangeOk_of_le hbound, Bool.not_true, Bool.false_eq_true,
    if_false] at hs
  by_cases hlt : j < r.cnt
  · rw [if_pos hlt, if_neg (by omega), Option.some.injEq] at hs
    rw [← hs]
    exact h.clearBit hpc hlt
  · rw [if_neg hlt, Option.some.injEq] at hs
    rw [← hs]
    refine h.move trivial (fun p k => ?_) fun p => ?_
    · rw [hpc]
      refine ⟨False.elim, ?_⟩
      rintro ⟨-, h1, h2⟩
      omega
    · rw [hpc]
      rfl

/-- A step of a call keeps the invariant. -/
theorem advance_inv (h : Inv P init s) (hs : advance s t = some s') : Inv P init s' := by
  cases hpc : s.pc t with
  | idle =>
    rw [advance, hpc] at hs
    cases hs
  | acquire pool cnt =>
    simp only [advance, hpc] at hs
    by_cases hfree : s.lock pool = none
    · rw [if_pos hfree, Option.some.injEq] at hs
      rw [← hs]
      exact h.acquire hpc hfree
    · rw [if_neg hfree] at hs
      cases hs
  | scan pool cnt i j => exact advance_scan h hpc hs
  | flip pool cnt idx j => exact advance_flip h hpc hs
  | release pool cnt idx =>
    simp only [advance, hpc, Option.some.injEq] at hs
    rw [← hs]
    by_cases hidx : idx = bitmapError
    · rw [if_neg (not_not.2 hidx)]
      exact h.releaseError (hidx ▸ hpc)
    · rw [if_pos hidx]
      exact h.release hpc hidx
  | check r j => exact advance_check h hpc hs
  | clear r j => exact advance_clear h hpc hs

theorem free_inv (h : Inv P init s) {k : Nat} {g : Grant τ} (hg : s.grants k = some g)
    (hpc : s.pc t = .idle) :
    Inv P init (freeMultiple P (s.setGrant k none) t (P.base g.range.pool + 4096 * g.range.idx)
      g.range.cnt) := by
  rw [freeMultiple_eq _ _ (h.grants k g hg).2]
  by_cases hcnt : g.range.cnt = 0
  · rw [if_pos hcnt]
    exact h.freeNothing hg hcnt
  · rw [if_neg hcnt]
    exact h.free hg hpc

theorem step_inv (a : τ × Action τ) (h : Inv P init s) (hs : step P s a = some s') :
    Inv P init s' := by
  obtain ⟨t, a⟩ := a
  cases a with
  | get pool cnt =>
    cases hpc : s.pc t <;> simp only [step, h.ok, hpc] at hs <;> try cases hs
    have hasked : Inv P init { s with
        request := update s.request t (pool, cnt)
        failed := none } :=
      ⟨rfl, h.size, ⟨h.exact.bits, h.exact.unique⟩, h.lock, h.pcs, h.grants⟩
    refine hasked.move (show PcOk P _ (.acquire pool cnt) from trivial)
      (fun p i => ?_) fun p => ?_ <;>
      simp only [hpc] <;> rfl
  | free k =>
    cases hg : s.grants k with
    | none =>
      cases hpc : s.pc t <;> simp only [step, h.ok, hpc, hg] at hs <;> cases hs
    | some g =>
      cases hpc : s.pc t <;> simp only [step, h.ok, hpc, hg] at hs <;> try cases hs
      by_cases ho : g.owner = t
      · rw [if_pos ho, Option.some.injEq] at hs
        rw [← hs]
        exact free_inv h hg hpc
      · rw [if_neg ho] at hs
        cases hs
  | advance =>
    simp only [step, h.ok] at hs
    exact advance_inv h hs
  | give k u =>
    cases hg : s.grants k with
    | none =>
      simp only [step, h.ok, hg] at hs
      cases hs
    | some g =>
      simp only [step, h.ok, hg] at hs
      by_cases ho : g.owner = t
      · rw [if_pos ho, Option.some.injEq] at hs
        rw [← hs]
        exact h.give hg u
      · rw [if_neg ho] at hs
        cases hs
  | split k cnt =>
    cases hg : s.grants k with
    | none =>
      simp only [step, h.ok, hg] at hs
      cases hs
    | some g =>
      simp only [step, h.ok, hg] at hs
      by_cases ho : g.owner = t ∧ cnt ≤ g.range.cnt
      · rw [if_pos ho, Option.some.injEq] at hs
        rw [← hs]
        exact h.split hg ho.2
      · rw [if_neg ho] at hs
        cases hs

/-! ## Requests and answers -/

/-- What the call under way asks for. -/
def Pc.request : Pc → Option (Pool × Nat)
  | .acquire pool cnt => some (pool, cnt)
  | .scan pool cnt _ _ => some (pool, cnt)
  | .flip pool cnt _ _ => some (pool, cnt)
  | .release pool cnt _ => some (pool, cnt)
  | _ => none

/-- The range is what was asked for, or a part of it. -/
def Grant.Answers (g : Grant τ) : Prop :=
  ∀ r, g.request = some r → r = (g.range.pool, g.range.cnt)

/-- A call asks for what its thread has asked for, and the ranges are what was asked for. -/
structure Asked (s : State τ) : Prop where
  calls : ∀ t r, (s.pc t).request = some r → s.request t = r
  grants : ∀ k g, s.grants k = some g → g.Answers

theorem scanFrom_request (n : Nat) (pool : Pool) (cnt i : Nat) :
    (scanFrom n pool cnt i).request = some (pool, cnt) := by
  unfold scanFrom
  split <;> rfl

omit [DecidableEq τ] in
theorem Asked.fail (h : Asked s) (f : Failure) : Asked (s.fail f) := ⟨h.calls, h.grants⟩

/-- A thread goes on with its call. -/
theorem Asked.goOn (h : Asked s) {pc : Pc} (hpc : s'.pc = update s.pc t pc)
    (hrequest : s'.request = s.request) (hgrants : s'.grants = s.grants)
    (hr : ∀ r, pc.request = some r → s.request t = r) : Asked s' := by
  refine ⟨fun u r hu => ?_, hgrants ▸ h.grants⟩
  rw [hpc] at hu
  rw [hrequest]
  by_cases hut : u = t
  · rw [hut, update_self] at hu
    exact hut ▸ hr r hu
  · rw [update_of_ne hut] at hu
    exact h.calls u r hu

omit [DecidableEq τ] in
theorem Asked.setGrant (h : Asked s) {k : Nat} {g : Option (Grant τ)}
    (hg : ∀ x, g = some x → x.Answers) : Asked (s.setGrant k g) := by
  refine ⟨h.calls, fun k' x hx => ?_⟩
  by_cases hk : k' = k
  · rw [hk, setGrant_self] at hx
    exact hg x hx
  · rw [setGrant_of_ne hk] at hx
    exact h.grants k' x hx

omit [DecidableEq τ] in
theorem Asked.grant (h : Asked s) {g : Grant τ} (hg : g.Answers) : Asked (s.grant g) := by
  have hset := h.setGrant (k := s.next) (g := some g) fun x hx => Option.some.inj hx ▸ hg
  exact ⟨hset.calls, hset.grants⟩

theorem advance_asked (h : Asked s) (hs : advance s t = some s') : Asked s' := by
  have ht := h.calls t
  have hidle : ∀ r, Pc.idle.request = some r → s.request t = r := fun r hr => by cases hr
  unfold advance at hs
  split at hs <;> rename_i hpc <;> rw [hpc] at ht
  · cases hs
  · split_ifs at hs
    cases hs
    exact h.goOn rfl rfl rfl (by rwa [scanFrom_request])
  · split_ifs at hs <;> cases hs
    · exact h.fail _
    · exact h.fail _
    · exact h.goOn rfl rfl rfl (by rwa [scanFrom_request])
    · exact h.goOn rfl rfl rfl ht
    · exact h.goOn rfl rfl rfl ht
    · exact h.goOn rfl rfl rfl ht
  · split_ifs at hs <;> cases hs
    · exact h.fail _
    · exact h.fail _
    · exact h.goOn rfl rfl rfl ht
    · exact h.goOn rfl rfl rfl ht
  · -- the range is handed out under the request of the thread
    have hdone : ∀ lock, Asked ({ s with lock := lock }.setPc t .idle) := fun _ =>
      h.goOn rfl rfl rfl hidle
    cases hs
    split_ifs
    · refine (hdone _).grant fun r hr => ?_
      rw [← Option.some.inj hr]
      exact ht _ rfl
    · exact hdone _
  · split_ifs at hs <;> cases hs
    · exact h.fail _
    · exact h.fail _
    · exact h.goOn rfl rfl rfl ht
    · exact h.fail _
    · exact h.goOn rfl rfl rfl ht
  · split_ifs at hs <;> cases hs
    · exact h.fail _
    · exact h.fail _
    · exact h.goOn rfl rfl rfl ht
    · exact h.goOn rfl rfl rfl hidle

theorem step_asked (a : τ × Action τ) (h : Asked s) (hs : step P s a = some s') : Asked s' := by
  obtain ⟨t, a⟩ := a
  simp only [step] at hs
  split at hs
  · cases hs
    refine ⟨fun u r hu => ?_, h.grants⟩
    change update s.request t _ u = r
    by_cases hut : u = t
    · rw [hut, setPc_pc_self] at hu
      rw [hut, update_self]
      exact Option.some.inj hu
    · rw [setPc_pc_of_ne _ t hut] at hu
      rw [update_of_ne hut]
      exact h.calls u r hu
  · split at hs
    · split_ifs at hs
      cases hs
      have hnone : ∀ k, Asked (s.setGrant k none) := fun k => h.setGrant fun x hx => by cases hx
      unfold freeMultiple
      split_ifs
      · exact (hnone _).fail _
      · exact hnone _
      · exact (hnone _).goOn rfl rfl rfl fun r hr => by cases hr
      · exact (hnone _).goOn rfl rfl rfl fun r hr => by cases hr
      · exact (hnone _).fail _
    · cases hs
  · exact advance_asked h hs
  · split at hs
    · rename_i g hg
      split_ifs at hs
      cases hs
      exact h.setGrant fun x hx => Option.some.inj hx ▸ h.grants _ g hg
    · cases hs
  · split at hs
    · split_ifs at hs
      cases hs
      exact (h.setGrant fun x hx => Option.some.inj hx ▸ fun r hr => by cases hr).grant
        fun r hr => by cases hr
    · cases hs
  · cases hs

omit [DecidableEq τ] in
theorem asked_start : Asked (start init : State τ) where
  calls := fun _ _ hr => (Option.some_ne_none _ hr.symm).elim
  grants := fun _ _ hg => (Option.some_ne_none _ hg.symm).elim

/-- Pages under preemption: whatever the threads do and however their calls interleave, no assertion
fails; the ranges that are handed out are those that were asked for or parts of them, share no page
with each other or with the pages in use from the start, lie in their pool and are marked as used;
and when no call is under way, the bits that are set are the initial ones and those of the ranges
that are handed out. -/
theorem pages_exclusive (P : Pools) (init : Pool → Bitmap)
    (hinit : ∀ p, (init p).bitCnt = P.bitCnt p) (l : List (τ × Action τ)) (s : State τ)
    (hrun : run (step P) (start init) l = some s) :
    s.failed = none ∧
    (∀ k k' g g', s.grants k = some g → s.grants k' = some g' → k ≠ k' →
      ∀ p i, g.range.Has p i → ¬ g'.range.Has p i) ∧
    (∀ k g, s.grants k = some g →
      (∀ pool cnt, g.request = some (pool, cnt) → g.range.pool = pool ∧ g.range.cnt = cnt) ∧
      g.range.idx + g.range.cnt ≤ P.bitCnt g.range.pool ∧
      ∀ p i, g.range.Has p i → (s.used p).test i = true ∧ (init p).test i = false) ∧
    ((∀ t, s.pc t = .idle) → ∀ p i, i < P.bitCnt p →
      ((s.used p).test i = true ↔
        (init p).test i = true ∨ ∃ k g, s.grants k = some g ∧ g.range.Has p i)) := by
  have h : Inv P init s :=
    run_invariant (P := fun _ => True) (fun _ a _ _ hi hs => step_inv a hi hs) (fun _ _ => trivial)
      (inv_start hinit) hrun
  have hasked : Asked s :=
    run_invariant (P := fun _ => True) (fun _ a _ _ hi hs => step_asked a hi hs)
      (fun _ _ => trivial) asked_start hrun
  have hlt : ∀ {k g p i}, s.grants k = some g → g.range.Has p i → i < P.bitCnt p := by
    rintro k g p i hg ⟨rfl, -, hi⟩
    exact lt_of_lt_of_le hi (h.grants k g hg).2
  refine ⟨h.ok, ?_, ?_, ?_⟩
  · intro k k' g g' hg hg' hk p i hp hp'
    have hsame := h.exact.unique p i (.ticket k) (.ticket k') (hlt hg hp) ⟨g, hg, hp⟩ ⟨g', hg', hp'⟩
    cases hsame
    exact hk rfl
  · intro k g hg
    refine ⟨fun pool cnt hr => ?_, (h.grants k g hg).2, fun p i hp => ⟨?_, ?_⟩⟩
    · cases hasked.grants k g hg _ hr
      exact ⟨rfl, rfl⟩
    · exact (h.exact.bits p i (hlt hg hp)).2 ⟨.ticket k, g, hg, hp⟩
    · refine Bool.eq_false_iff.2 fun hset => ?_
      have hsame := h.exact.unique p i (.ticket k) .initial (hlt hg hp) ⟨g, hg, hp⟩ hset
      cases hsame
  · intro hidle p i hi
    rw [h.exact.bits p i hi]
    constructor
    · rintro ⟨c, hc⟩
      cases c with
      | initial => exact .inl hc
      | ticket k =>
        obtain ⟨g, hg, hp⟩ := hc
        exact .inr ⟨k, g, hg, hp⟩
      | thread t => exact ((owns_thread (hidle t) p i).1 hc).elim
    · rintro (hset | ⟨k, g, hg, hp⟩)
      · exact ⟨.initial, hset⟩
      · exact ⟨.ticket k, g, hg, hp⟩

/-- A kernel pool of four pages and a user pool of two. -/
def smallPools : Pools where
  base := fun p => match p with
    | .kernel => 4096
    | .user => 8 * 4096
  bitCnt := fun p => match p with
    | .kernel => 4
    | .user => 2
  aligned := fun p => by cases p <;> rfl
  pos := fun p => by cases p <;> norm_num
  top := fun p => by cases p <;> norm_num
  disjoint := fun p q hpq => by cases p <;> cases q <;> simp_all

/-- Two threads: one takes two pages and returns them while the other searches the same pool. -/
def smallRun : List (Bool × Action Bool) :=
  (true, .get .kernel 2) :: List.replicate 8 (true, .advance) ++
  (false, .get .kernel 2) :: (true, .free 0) :: (false, .advance) ::
  List.replicate 4 (true, .advance) ++ (false, .advance) :: (true, .advance) ::
  List.replicate 6 (false, .advance) ++ [(true, .advance)]

theorem pages_exclusive_smallRun :
    ∃ s, run (step smallPools) (start fun p => .create (smallPools.bitCnt p) fun _ => 0) smallRun =
        some s ∧ s.failed = none ∧ ∃ g, s.grants 1 = some g ∧ g.range.pool = .kernel ∧
      g.range.cnt = 2 ∧ (s.used g.range.pool).test g.range.idx = true := by
  refine exists_end (p := fun s => ∃ g ∈ s.grants 1, g.request = some (.kernel, 2))
    (by decide +kernel) ?_
  rintro s hs ⟨g, hg, hr⟩
  obtain ⟨hok, -, hgrants, -⟩ := pages_exclusive smallPools _ (fun p => by cases p <;> rfl) _ s hs
  obtain ⟨hrequest, -, hused⟩ := hgrants 1 g hg
  obtain ⟨hpool, hcnt⟩ := hrequest _ _ hr
  exact ⟨hok, g, hg, hpool, hcnt, (hused _ _ ⟨rfl, le_rfl, by omega⟩).1⟩

end Pintos.Threads.PallocPreemption
