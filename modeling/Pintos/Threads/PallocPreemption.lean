import Pintos.LibKernel.Bitmap
import Pintos.Threads.Palloc

/-!
# The page allocator under preemption

`palloc_get_multiple` and `palloc_free_multiple` as they are executed by any number of threads, one
bit of a bitmap at a time. A request takes the lock of its pool, tests bit after bit, sets bit after
bit and releases the lock; the return of a range takes no lock, and may clear bits while another
thread tests or sets bits of the same pool. Every interleaving is a list of steps of the threads.

A range of pages that has been handed out belongs to a thread, under a number that is never used
again. It may be given to another thread and split in two before its parts are returned. What makes
the allocator safe is that every bit that is set has exactly one owner: the initial bitmap, a range
that is handed out, or a call that is under way (`Exact`).

Of the flags of a request only `PAL_USER` matters here; the contents of the pages are left out. A
request with `PAL_ASSERT` that finds no pages stops the kernel, and with it the run.
-/

set_option autoImplicit false

namespace Pintos.Threads.PallocPreemption

open LibKernel (Bitmap bitmapError)
open Function Vaddr Palloc

/-- Where the two pools are: the address of the first page, and the number of pages. -/
structure Pools where
  base : Pool → Nat
  bitCnt : Pool → Nat
  aligned : ∀ p, base p % 4096 = 0
  pos : ∀ p, 0 < base p
  top : ∀ p, base p + 4096 * bitCnt p ≤ 2 ^ 64
  disjoint : ∀ p q, p ≠ q →
    base p + 4096 * bitCnt p ≤ base q ∨ base q + 4096 * bitCnt q ≤ base p

/-- Consecutive pages of a pool. -/
structure Range where
  pool : Pool
  idx : Nat
  cnt : Nat

/-- The range contains the page with index `i` of the pool `p`. -/
def Range.Has (r : Range) (p : Pool) (i : Nat) : Prop :=
  r.pool = p ∧ r.idx ≤ i ∧ i < r.idx + r.cnt

/-- Where a thread is in its call. -/
inductive Pc where
  | idle
  /-- In `lock_acquire` of `palloc_get_multiple`. -/
  | acquire (pool : Pool) (cnt : Nat)
  /-- In `bitmap_scan` at index `i`, before `bitmap_contains` tests bit `i + j`. -/
  | scan (pool : Pool) (cnt i j : Nat)
  /-- In `bitmap_set_multiple (.., true)`, before bit `idx + j` is set. -/
  | flip (pool : Pool) (cnt idx j : Nat)
  /-- Before `lock_release`, with the result of `bitmap_scan_and_flip`. -/
  | release (pool : Pool) (cnt pageIdx : Nat)
  /-- In `bitmap_all` of `palloc_free_multiple`, before bit `idx + j` is tested. -/
  | check (r : Range) (j : Nat)
  /-- In `bitmap_set_multiple (.., false)`, before bit `idx + j` is cleared. -/
  | clear (r : Range) (j : Nat)

/-- Assertions of `palloc.c` and `bitmap.c`. -/
inductive Failure where
  | pagesOffset
  | notReached
  | bitmapAll
  | bitIndex
  | bitRange

variable {τ : Type}

/-- A range that is handed out, and the thread that owns it. -/
structure Grant (τ : Type) where
  owner : τ
  range : Range
  /-- The pool and the number of pages that were asked for; `none` for a part of what was handed
  out. -/
  request : Option (Pool × Nat)

/-- The bitmaps, the locks, and the threads. -/
structure State (τ : Type) where
  used : Pool → Bitmap
  lock : Pool → Option τ
  pc : τ → Pc
  /-- What each thread has asked for last. -/
  request : τ → Pool × Nat
  /-- The ranges that are handed out, by number. -/
  grants : Nat → Option (Grant τ)
  /-- The next number. -/
  next : Nat
  failed : Option Failure

namespace State

/-- A thread goes on to another point of its call. -/
def setPc [DecidableEq τ] (s : State τ) (t : τ) (pc : Pc) : State τ :=
  { s with pc := update s.pc t pc }

/-- `bitmap_set`, on the bitmap of a pool. -/
def setBit (s : State τ) (p : Pool) (i : Nat) (value : Bool) : State τ :=
  { s with used := update s.used p ((s.used p).set i value) }

/-- An assertion fails. -/
def fail (s : State τ) (f : Failure) : State τ := { s with failed := some f }

/-- The range with the number `k` is another one, or none. -/
def setGrant (s : State τ) (k : Nat) (g : Option (Grant τ)) : State τ :=
  { s with grants := update s.grants k g }

/-- A range is handed out. -/
def grant (s : State τ) (g : Grant τ) : State τ :=
  { s.setGrant s.next (some g) with next := s.next + 1 }

end State

/-! ## The calls -/

/-- The loop of `bitmap_scan` when it comes to index `i`. -/
def scanFrom (bitCnt : Nat) (pool : Pool) (cnt i : Nat) : Pc :=
  if cnt ≤ bitCnt ∧ i ≤ bitCnt - cnt then .scan pool cnt i 0 else .release pool cnt bitmapError

/-- `page_from_pool`. -/
def pageFromPool (P : Pools) (p : Pool) (page : Nat) : Bool :=
  P.base p / 4096 ≤ page / 4096 && page / 4096 < P.base p / 4096 + P.bitCnt p

/-- `palloc_free_multiple`, up to the first test of a bit. -/
def freeMultiple [DecidableEq τ] (P : Pools) (s : State τ) (t : τ) (pages cnt : Nat) : State τ :=
  if pgOfs pages ≠ 0 then s.fail .pagesOffset
  else if pages = 0 ∨ cnt = 0 then s
  else if pageFromPool P .kernel pages then
    s.setPc t (.check ⟨.kernel, pages / 4096 - P.base .kernel / 4096, cnt⟩ 0)
  else if pageFromPool P .user pages then
    s.setPc t (.check ⟨.user, pages / 4096 - P.base .user / 4096, cnt⟩ 0)
  else s.fail .notReached

/-- The assertions of `bitmap_contains` and `bitmap_set_multiple`, on `size_t`. -/
def rangeOk (bitCnt start cnt : Nat) : Bool := start ≤ bitCnt && (start + cnt) % 2 ^ 64 ≤ bitCnt

/-- The next step of a thread that is in a call. A step reads or writes one bit at most. The
assertions on a range are made before each bit, as nothing changes their outcome. -/
def advance [DecidableEq τ] (s : State τ) (t : τ) : Option (State τ) :=
  match s.pc t with
  | .idle => none
  | .acquire pool cnt =>
    if s.lock pool = none then
      some ({ s with lock := update s.lock pool (some t) }.setPc t
        (scanFrom (s.used pool).bitCnt pool cnt 0))
    else none
  | .scan pool cnt i j =>
    if !rangeOk (s.used pool).bitCnt i cnt then some (s.fail .bitRange)
    else if j < cnt then
      if (s.used pool).bitCnt ≤ i + j then some (s.fail .bitIndex)
      else if (s.used pool).test (i + j) then
        some (s.setPc t (scanFrom (s.used pool).bitCnt pool cnt (i + 1)))
      else some (s.setPc t (.scan pool cnt i (j + 1)))
    else some (s.setPc t (if i ≠ bitmapError then .flip pool cnt i 0 else .release pool cnt i))
  | .flip pool cnt idx j =>
    if !rangeOk (s.used pool).bitCnt idx cnt then some (s.fail .bitRange)
    else if j < cnt then
      if (s.used pool).bitCnt ≤ idx + j then some (s.fail .bitIndex)
      else some ((s.setBit pool (idx + j) true).setPc t (.flip pool cnt idx (j + 1)))
    else some (s.setPc t (.release pool cnt idx))
  | .release pool cnt pageIdx =>
    let s' := { s with lock := update s.lock pool none }.setPc t .idle
    some (if pageIdx ≠ bitmapError then s'.grant ⟨t, ⟨pool, pageIdx, cnt⟩, some (s.request t)⟩
      else s')
  | .check r j =>
    if !rangeOk (s.used r.pool).bitCnt r.idx r.cnt then some (s.fail .bitRange)
    else if j < r.cnt then
      if (s.used r.pool).bitCnt ≤ r.idx + j then some (s.fail .bitIndex)
      else if (s.used r.pool).test (r.idx + j) then some (s.setPc t (.check r (j + 1)))
      else some (s.fail .bitmapAll)
    else some (s.setPc t (.clear r 0))
  | .clear r j =>
    if !rangeOk (s.used r.pool).bitCnt r.idx r.cnt then some (s.fail .bitRange)
    else if j < r.cnt then
      if (s.used r.pool).bitCnt ≤ r.idx + j then some (s.fail .bitIndex)
      else some ((s.setBit r.pool (r.idx + j) false).setPc t (.clear r (j + 1)))
    else some (s.setPc t .idle)

/-- What a thread does next: call one of the two functions, go on with its call, or pass on pages
that it owns. -/
inductive Action (τ : Type) where
  | get (pool : Pool) (cnt : Nat)
  | free (k : Nat)
  | advance
  | give (k : Nat) (t : τ)
  | split (k cnt : Nat)

/-- A step of the thread `t`. Threads return and pass on ranges that they own. -/
def step [DecidableEq τ] (P : Pools) (s : State τ) : τ × Action τ → Option (State τ)
  | (t, a) =>
    match s.failed, s.pc t, a with
    | none, .idle, .get pool cnt =>
      some ({ s with request := update s.request t (pool, cnt) }.setPc t (.acquire pool cnt))
    | none, .idle, .free k =>
      match s.grants k with
      | some g =>
        if g.owner = t then
          some (freeMultiple P (s.setGrant k none) t
            (P.base g.range.pool + 4096 * g.range.idx) g.range.cnt)
        else none
      | none => none
    | none, _, .advance => advance s t
    | none, _, .give k t' =>
      match s.grants k with
      | some g =>
        if g.owner = t then some (s.setGrant k (some { g with owner := t' }))
        else none
      | none => none
    | none, _, .split k cnt =>
      match s.grants k with
      | some g =>
        if g.owner = t ∧ cnt ≤ g.range.cnt then
          some ((s.setGrant k (some ⟨t, ⟨g.range.pool, g.range.idx, cnt⟩, none⟩)).grant
            ⟨t, ⟨g.range.pool, g.range.idx + cnt, g.range.cnt - cnt⟩, none⟩)
        else none
      | none => none
    | _, _, _ => none

/-- No thread is in a call, and nothing is handed out. -/
def start (init : Pool → Bitmap) : State τ where
  used := init
  lock := fun _ => none
  pc := fun _ => .idle
  request := fun _ => (.kernel, 0)
  grants := fun _ => none
  next := 0
  failed := none

/-! ## Owners of pages -/

/-- Who may own a page: the initial bitmap, a range that is handed out, or a call under way. -/
inductive Claimant (τ : Type) where
  | initial
  | ticket (k : Nat)
  | thread (t : τ)

/-- The pages that a call under way owns: those whose bits it has set, or has not cleared yet. -/
def Pc.Claims : Pc → Pool → Nat → Prop
  | .flip pool _ idx j, p, i => pool = p ∧ idx ≤ i ∧ i < idx + j
  | .release pool cnt idx, p, i => idx ≠ bitmapError ∧ pool = p ∧ idx ≤ i ∧ i < idx + cnt
  | .check r _, p, i => r.Has p i
  | .clear r j, p, i => r.pool = p ∧ r.idx + j ≤ i ∧ i < r.idx + r.cnt
  | _, _, _ => False

/-- The pages of a claimant. -/
def Owns (init : Pool → Bitmap) (s : State τ) : Claimant τ → Pool → Nat → Prop
  | .initial, p, i => (init p).test i = true
  | .ticket k, p, i => ∃ g, s.grants k = some g ∧ g.range.Has p i
  | .thread t, p, i => (s.pc t).Claims p i

/-- The points of a call at which a thread holds the lock of a pool. -/
def Pc.Holds : Pc → Pool → Prop
  | .scan pool _ _ _, p => pool = p
  | .flip pool _ _ _, p => pool = p
  | .release pool _ _, p => pool = p
  | _, _ => False

/-- What a thread has found out about the bits, which no other thread changes. -/
def PcOk (P : Pools) (s : State τ) : Pc → Prop
  | .scan pool cnt i j => i + cnt ≤ P.bitCnt pool ∧ j ≤ cnt ∧
      ∀ k < j, (s.used pool).test (i + k) = false
  | .flip pool cnt idx j => idx ≠ bitmapError ∧ idx + cnt ≤ P.bitCnt pool ∧ j ≤ cnt ∧
      ∀ k, j ≤ k → k < cnt → (s.used pool).test (idx + k) = false
  | .release pool cnt idx => idx ≠ bitmapError → idx + cnt ≤ P.bitCnt pool
  | .check r j => r.idx + r.cnt ≤ P.bitCnt r.pool ∧ j ≤ r.cnt
  | .clear r j => r.idx + r.cnt ≤ P.bitCnt r.pool ∧ j ≤ r.cnt
  | _ => True

/-- A bit is set exactly when its page has an owner, and no page has two. -/
structure Exact (P : Pools) (init : Pool → Bitmap) (s : State τ) : Prop where
  bits : ∀ p i, i < P.bitCnt p → ((s.used p).test i = true ↔ ∃ c, Owns init s c p i)
  unique : ∀ p i c c', i < P.bitCnt p → Owns init s c p i → Owns init s c' p i → c = c'

structure Inv (P : Pools) (init : Pool → Bitmap) (s : State τ) : Prop where
  ok : s.failed = none
  size : ∀ p, (s.used p).bitCnt = P.bitCnt p
  exact : Exact P init s
  lock : ∀ p t, s.lock p = some t ↔ (s.pc t).Holds p
  pcs : ∀ t, PcOk P s (s.pc t)
  grants : ∀ k g, s.grants k = some g →
    k < s.next ∧ g.range.idx + g.range.cnt ≤ P.bitCnt g.range.pool

variable {P : Pools} {init : Pool → Bitmap} {s s' : State τ} {t : τ} {k : Nat} {g : Grant τ}

/-- Pages change hands without a change of bits; `old` says who owned a page before. -/
theorem Exact.relabel (h : Exact P init s) (hused : s'.used = s.used)
    (old : Claimant τ → Claimant τ) (hold : ∀ c p i, Owns init s' c p i → Owns init s (old c) p i)
    (hinj : ∀ c c' p i, Owns init s' c p i → Owns init s' c' p i → old c = old c' → c = c')
    (hkept : ∀ c p i, Owns init s c p i → ∃ c', Owns init s' c' p i) : Exact P init s' where
  bits := by
    intro p i hi
    rw [hused, h.bits p i hi]
    constructor
    · rintro ⟨c, hc⟩
      exact hkept c p i hc
    · rintro ⟨c, hc⟩
      exact ⟨old c, hold c p i hc⟩
  unique := fun p i c c' hi hc hc' =>
    hinj c c' p i hc hc' (h.unique p i _ _ hi (hold c p i hc) (hold c' p i hc'))

/-- Nothing changes hands. -/
theorem Exact.same (h : Exact P init s) (hused : s'.used = s.used)
    (howns : ∀ c p i, Owns init s' c p i ↔ Owns init s c p i) : Exact P init s' :=
  h.relabel hused id (fun c p i => (howns c p i).1) (fun _ _ _ _ _ _ h => h)
    fun c p i hc => ⟨c, (howns c p i).2 hc⟩

/-- Pages of `a` go over to `b`, which had none. -/
theorem Exact.handOver (h : Exact P init s) (hused : s'.used = s.used) {a b : Claimant τ}
    (hnone : ∀ p i, ¬ Owns init s b p i)
    (hshare : ∀ p i, Owns init s a p i ↔ Owns init s' a p i ∨ Owns init s' b p i)
    (hapart : ∀ p i, Owns init s' a p i → ¬ Owns init s' b p i)
    (hothers : ∀ c p i, c ≠ a → c ≠ b → (Owns init s' c p i ↔ Owns init s c p i)) :
    Exact P init s' := by
  classical
  refine h.relabel hused (fun c => if c = b then a else c) ?_ ?_ ?_
  · intro c p i hc
    by_cases hcb : c = b
    · rw [if_pos hcb, hshare]
      exact Or.inr (hcb ▸ hc)
    · rw [if_neg hcb]
      by_cases hca : c = a
      · rw [hca, hshare]
        exact Or.inl (hca ▸ hc)
      · exact (hothers c p i hca hcb).1 hc
  · intro c c' p i hc hc' heq
    by_cases hcb : c = b
    · by_cases hcb' : c' = b
      · rw [hcb, hcb']
      · rw [if_pos hcb, if_neg hcb'] at heq
        exact absurd (hcb ▸ hc) (hapart p i (heq ▸ hc'))
    · by_cases hcb' : c' = b
      · rw [if_neg hcb, if_pos hcb'] at heq
        exact absurd (hcb' ▸ hc') (hapart p i (heq ▸ hc))
      · rw [if_neg hcb, if_neg hcb'] at heq
        exact heq
  · intro c p i hc
    by_cases hca : c = a
    · rcases (hshare p i).1 (hca ▸ hc) with hc' | hc'
      · exact ⟨a, hc'⟩
      · exact ⟨b, hc'⟩
    · have hcb : c ≠ b := fun e => hnone p i (e ▸ hc)
      exact ⟨c, (hothers c p i hca hcb).2 hc⟩

/-- What a thread knows is about the bits. -/
theorem pcOk_congr (hused : s'.used = s.used) (pc : Pc) : PcOk P s' pc ↔ PcOk P s pc := by
  cases pc <;> simp only [PcOk, hused]

theorem owns_thread {pc : Pc} (hpc : s.pc t = pc) (p : Pool) (i : Nat) :
    Owns init s (.thread t) p i ↔ pc.Claims p i := by
  rw [Owns, hpc]

theorem inv_start (hinit : ∀ p, (init p).bitCnt = P.bitCnt p) :
    Inv P init (start init : State τ) where
  ok := rfl
  size := hinit
  exact := by
    have hinitial : ∀ c p i, Owns init (start init : State τ) c p i →
        c = .initial ∧ (init p).test i = true := by
      intro c p i hc
      cases c with
      | initial => exact ⟨rfl, hc⟩
      | ticket k =>
        obtain ⟨g, hg, -⟩ := hc
        cases hg
      | thread t => exact hc.elim
    refine ⟨fun p i _ => ⟨fun h => ⟨.initial, h⟩, fun ⟨c, hc⟩ => (hinitial c p i hc).2⟩, ?_⟩
    intro p i c c' _ hc hc'
    rw [(hinitial c p i hc).1, (hinitial c' p i hc').1]
  lock := fun p t => ⟨fun h => (Option.some_ne_none _ h.symm).elim, False.elim⟩
  pcs := fun _ => trivial
  grants := fun k g hg => by cases hg

/-! ## Bits -/

/-- The bits after one of them has been written. -/
theorem setBit_test {p : Pool} {x : Nat} (hx : x < (s.used p).bitCnt) (v : Bool) (q : Pool)
    (i : Nat) : ((s.setBit p x v).used q).test i =
      if q = p ∧ i = x then v else (s.used q).test i := by
  by_cases hq : q = p
  · subst hq
    simp only [State.setBit, update_self, Bitmap.test_set hx, true_and]
  · simp only [State.setBit, update_of_ne hq, hq, false_and, if_false]

theorem setBit_size (p : Pool) (x : Nat) (v : Bool) (q : Pool) :
    ((s.setBit p x v).used q).bitCnt = (s.used q).bitCnt := by
  by_cases hq : q = p
  · subst hq
    simp [State.setBit]
  · simp [State.setBit, hq]

/-- What a thread knows survives a bit that is cleared, or set in a pool whose lock it does not
hold. -/
theorem pcOk_setBit {pc : Pc} {p : Pool} {x : Nat} {v : Bool} (hx : x < (s.used p).bitCnt)
    (hok : PcOk P s pc) (hv : v = true → ¬ pc.Holds p) : PcOk P (s.setBit p x v) pc := by
  have hkeep : ∀ q i, (v = true → q ≠ p) → (s.used q).test i = false →
      ((s.setBit p x v).used q).test i = false := by
    intro q i hq hi
    rw [setBit_test hx]
    by_cases hqi : q = p ∧ i = x
    · rw [if_pos hqi]
      cases v with
      | false => rfl
      | true => exact absurd hqi.1 (hq rfl)
    · rw [if_neg hqi]
      exact hi
  cases pc with
  | scan pool cnt i j =>
    exact ⟨hok.1, hok.2.1, fun k hk => hkeep pool _ (fun hvt hp => hv hvt hp) (hok.2.2 k hk)⟩
  | flip pool cnt idx j =>
    exact ⟨hok.1, hok.2.1, hok.2.2.1, fun k hk₁ hk₂ =>
      hkeep pool _ (fun hvt hp => hv hvt hp) (hok.2.2.2 k hk₁ hk₂)⟩
  | idle => exact hok
  | acquire pool cnt => exact hok
  | release pool cnt idx => exact hok
  | check r j => exact hok
  | clear r j => exact hok

/-! ## The loop of a request -/

theorem scanFrom_claims (n : Nat) (pool : Pool) (cnt i : Nat) (p : Pool) (k : Nat) :
    ¬ (scanFrom n pool cnt i).Claims p k := by
  unfold scanFrom
  by_cases h : cnt ≤ n ∧ i ≤ n - cnt
  · rw [if_pos h]
    exact id
  · rw [if_neg h]
    exact fun hc => hc.1 rfl

theorem scanFrom_holds (n : Nat) (pool : Pool) (cnt i : Nat) (p : Pool) :
    (scanFrom n pool cnt i).Holds p ↔ pool = p := by
  unfold scanFrom
  by_cases h : cnt ≤ n ∧ i ≤ n - cnt
  · rw [if_pos h]
    rfl
  · rw [if_neg h]
    rfl

theorem scanFrom_ok (s : State τ) (pool : Pool) (cnt i : Nat) :
    PcOk P s (scanFrom (P.bitCnt pool) pool cnt i) := by
  unfold scanFrom
  by_cases h : cnt ≤ P.bitCnt pool ∧ i ≤ P.bitCnt pool - cnt
  · rw [if_pos h]
    exact ⟨by omega, by omega, by simp⟩
  · rw [if_neg h]
    exact fun hne => absurd rfl hne

/-! ## Ranges that are handed out -/

@[simp] theorem setGrant_self (k : Nat) (g : Option (Grant τ)) : (s.setGrant k g).grants k = g :=
  update_self ..

theorem setGrant_of_ne {k' : Nat} (hk : k' ≠ k) (g : Option (Grant τ)) :
    (s.setGrant k g).grants k' = s.grants k' :=
  update_of_ne hk ..

/-- The claims after the range with the number `k` has become another one. -/
theorem owns_setGrant (s : State τ) (k : Nat) (g : Option (Grant τ)) (c : Claimant τ) (p : Pool)
    (i : Nat) : Owns init (s.setGrant k g) c p i ↔
      (c = .ticket k ∧ ∃ g', g = some g' ∧ g'.range.Has p i) ∨
        (c ≠ .ticket k ∧ Owns init s c p i) := by
  by_cases hc : c = .ticket k
  · subst hc
    simp [Owns]
  · simp only [hc, false_and, false_or, ne_eq, not_false_eq_true, true_and]
    cases c with
    | ticket k' =>
      have hk : k' ≠ k := fun e => hc (by rw [e])
      simp only [Owns, setGrant_of_ne hk]
    | initial => rfl
    | thread u => rfl

theorem owns_grant (s : State τ) (g : Grant τ) (c : Claimant τ) (p : Pool) (i : Nat) :
    Owns init (s.grant g) c p i ↔
      (c = .ticket s.next ∧ g.range.Has p i) ∨ (c ≠ .ticket s.next ∧ Owns init s c p i) := by
  have hset : Owns init (s.setGrant s.next (some g)) c p i ↔ _ :=
    owns_setGrant s s.next (some g) c p i
  simp only [Option.some.injEq, exists_eq_left'] at hset
  rw [← hset]
  cases c <;> rfl

/-- The numbers and bounds of the ranges after one more has been handed out. -/
theorem grants_grant {g' : Grant τ} (hr : g'.range.idx + g'.range.cnt ≤ P.bitCnt g'.range.pool)
    (hs : ∀ k g, s.grants k = some g →
      k < s.next ∧ g.range.idx + g.range.cnt ≤ P.bitCnt g.range.pool) :
    ∀ k g, (s.grant g').grants k = some g →
      k < s.next + 1 ∧ g.range.idx + g.range.cnt ≤ P.bitCnt g.range.pool := by
  intro k g hg
  change (s.setGrant s.next (some g')).grants k = some g at hg
  by_cases hk : k = s.next
  · rw [hk, setGrant_self, Option.some.injEq] at hg
    subst hg
    exact ⟨by omega, hr⟩
  · rw [setGrant_of_ne hk] at hg
    exact ⟨Nat.lt_succ_of_lt (hs k g hg).1, (hs k g hg).2⟩

theorem Inv.next_unused (h : Inv P init s) (p : Pool) (i : Nat) :
    ¬ Owns init s (.ticket s.next) p i := by
  rintro ⟨g, hg, -⟩
  exact absurd (h.grants _ g hg).1 (lt_irrefl _)

section

variable (h : Inv P init s) (hg : s.grants k = some g)
include h hg

/-- The numbers and bounds of the ranges after one of them has become another one. -/
theorem Inv.grants_setGrant {g' : Option (Grant τ)}
    (hg' : ∀ x, g' = some x → x.range.idx + x.range.cnt ≤ P.bitCnt x.range.pool) :
    ∀ k' x, (s.setGrant k g').grants k' = some x →
      k' < s.next ∧ x.range.idx + x.range.cnt ≤ P.bitCnt x.range.pool := by
  intro k' x hx
  by_cases hk : k' = k
  · rw [hk, setGrant_self] at hx
    exact ⟨hk ▸ (h.grants k g hg).1, hg' x hx⟩
  · rw [setGrant_of_ne hk] at hx
    exact h.grants k' x hx

/-- An empty range is returned. -/
theorem Inv.freeNothing (hcnt : g.range.cnt = 0) :
    Inv P init (s.setGrant k none) := by
  refine ⟨h.ok, h.size, ?_, h.lock, fun u => (pcOk_congr rfl _).2 (h.pcs u),
    h.grants_setGrant hg fun x hx => by cases hx⟩
  refine h.exact.same rfl fun c p i => ?_
  rw [owns_setGrant]
  by_cases hc : c = .ticket k
  · have hempty : ¬ g.range.Has p i := by
      rw [Range.Has]
      omega
    rw [hc]
    simp [Owns, hg, hempty]
  · simp [hc]

theorem Inv.give (u : τ) :
    Inv P init (s.setGrant k (some { g with owner := u })) := by
  refine ⟨h.ok, h.size, ?_, h.lock, fun v => (pcOk_congr rfl _).2 (h.pcs v),
    h.grants_setGrant hg ?_⟩
  · refine h.exact.same rfl fun c p i => ?_
    rw [owns_setGrant]
    by_cases hc : c = .ticket k
    · rw [hc]
      simp [Owns, hg]
    · simp [hc]
  · intro x hx
    cases hx
    exact (h.grants k g hg).2

theorem Inv.split {cnt : Nat} (hcnt : cnt ≤ g.range.cnt) :
    Inv P init ((s.setGrant k (some ⟨t, ⟨g.range.pool, g.range.idx, cnt⟩, none⟩)).grant
      ⟨t, ⟨g.range.pool, g.range.idx + cnt, g.range.cnt - cnt⟩, none⟩) := by
  obtain ⟨hk, hbound⟩ := h.grants k g hg
  have hkn : Claimant.ticket k ≠ (.ticket s.next : Claimant τ) := by
    intro e
    cases e
    exact lt_irrefl _ hk
  have hnext : (s.setGrant k (some ⟨t, ⟨g.range.pool, g.range.idx, cnt⟩, none⟩)).next = s.next :=
    rfl
  refine ⟨h.ok, h.size, ?_, h.lock, fun v => (pcOk_congr rfl _).2 (h.pcs v),
    grants_grant (by simp only; omega) (h.grants_setGrant hg fun x hx => ?_)⟩
  · refine h.exact.handOver (a := .ticket k) (b := .ticket s.next) rfl h.next_unused ?_ ?_ ?_
    · intro p i
      rw [owns_grant, owns_grant, owns_setGrant, hnext]
      simp only [Owns, hg, hkn, Range.Has, Option.some.injEq, exists_eq_left', false_and, false_or,
        ne_eq, not_false_eq_true, true_and, not_true_eq_false, or_false]
      by_cases hp : g.range.pool = p
      · simp only [hp, true_and]
        omega
      · simp [hp]
    · intro p i hk hn
      rw [owns_grant, hnext] at hk hn
      rw [owns_setGrant] at hk
      simp only [hkn, Range.Has, Option.some.injEq, exists_eq_left', false_and, false_or,
        ne_eq, not_false_eq_true, true_and, not_true_eq_false, or_false] at hk hn
      omega
    · intro c p i hck hcn
      rw [owns_grant, owns_setGrant, hnext]
      simp [hck, hcn]
  · cases hx
    simp only
    omega

end

end Pintos.Threads.PallocPreemption
