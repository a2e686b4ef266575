import Mathlib.Tactic
import Mathlib.Logic.Equiv.Basic

/-!
# Heap sort and binary search

Heap sort on an array that is a function on positions, with its elements at the positions from 1 on,
so that the children of `i` are `2 * i` and `2 * i + 1`. The comparison is a test `gt` for
"greater"; `Comparison` says that its negation is a total preorder. Floating an element down repairs
a heap that is in order except at one position (`HeapBut`); building repairs the positions from the
middle down to 1, and sorting exchanges the root with the last element and repairs the heap that is
left. The result is in order and is the array up to a permutation of the positions.
-/

set_option autoImplicit false

namespace Pintos.Lib.HeapSort

variable {α : Type}

/-- A test for "greater" whose negation, "less or equal", is a total preorder. -/
structure Comparison (gt : α → α → Bool) : Prop where
  asymm : ∀ {x y}, gt x y = true → gt y x = false
  trans : ∀ {x y z}, gt x y = false → gt y z = false → gt x z = false

theorem Comparison.refl {gt : α → α → Bool} (h : Comparison gt) (x : α) : gt x x = false := by
  cases hx : gt x x with
  | false => rfl
  | true => exact hx ▸ h.asymm hx

/-! ## Rearrangements -/

/-- The array with the elements at two positions exchanged. -/
def exchange (a : Nat → α) (i j : Nat) : Nat → α := a ∘ Equiv.swap i j

/-- The second array is the first with the positions from `lo` to `hi` permuted. -/
def Rearranged (lo hi : Nat) (a a' : Nat → α) : Prop :=
  ∃ p : Equiv.Perm Nat, (∀ j, p j ≠ j → lo ≤ j ∧ j ≤ hi) ∧ a' = a ∘ p

variable {lo hi : Nat} {a b c : Nat → α} {j n : Nat}

theorem exchange_left (a : Nat → α) (i j : Nat) : exchange a i j i = a j :=
  congrArg a (Equiv.swap_apply_left i j)

theorem exchange_right (a : Nat → α) (i j : Nat) : exchange a i j j = a i :=
  congrArg a (Equiv.swap_apply_right i j)

theorem exchange_of_ne {i k : Nat} (hi : k ≠ i) (hj : k ≠ j) : exchange a i j k = a k :=
  congrArg a (Equiv.swap_apply_of_ne_of_ne hi hj)

theorem Rearranged.refl (lo hi : Nat) (a : Nat → α) : Rearranged lo hi a a :=
  ⟨1, fun _ h => absurd rfl h, rfl⟩

theorem Rearranged.trans (h : Rearranged lo hi a b) (h' : Rearranged lo hi b c) :
    Rearranged lo hi a c := by
  obtain ⟨p, hp, rfl⟩ := h
  obtain ⟨q, hq, rfl⟩ := h'
  refine ⟨p * q, ?_, rfl⟩
  intro j hj
  by_cases hqj : q j = j
  · refine hp j ?_
    rwa [Equiv.Perm.mul_apply, hqj] at hj
  · exact hq j hqj

theorem rearranged_exchange {i : Nat} (hi1 : lo ≤ i) (hi2 : i ≤ hi) (hj1 : lo ≤ j) (hj2 : j ≤ hi) :
    Rearranged lo hi a (exchange a i j) := by
  refine ⟨Equiv.swap i j, ?_, rfl⟩
  intro k hk
  by_cases hki : k = i
  · omega
  · by_cases hkj : k = j
    · omega
    · exact absurd (Equiv.swap_apply_of_ne_of_ne hki hkj) hk

theorem Rearranged.mono {lo' hi' : Nat} (h : Rearranged lo hi a b) (hlo : lo' ≤ lo)
    (hhi : hi ≤ hi') : Rearranged lo' hi' a b := by
  obtain ⟨p, hp, hb⟩ := h
  exact ⟨p, fun j hj => ⟨hlo.trans (hp j hj).1, (hp j hj).2.trans hhi⟩, hb⟩

/-- Positions outside keep their elements. -/
theorem Rearranged.outside (h : Rearranged lo hi a b) (hj : ¬ (lo ≤ j ∧ j ≤ hi)) :
    b j = a j := by
  obtain ⟨p, hp, rfl⟩ := h
  have hfix : p j = j := by
    by_contra hne
    exact hj (hp j hne)
  exact congrArg a hfix

/-- A position inside gets the element of a position inside. -/
theorem Rearranged.inside (h : Rearranged lo hi a b) (hj1 : lo ≤ j) (hj2 : j ≤ hi) :
    ∃ k, lo ≤ k ∧ k ≤ hi ∧ b j = a k := by
  obtain ⟨p, hp, rfl⟩ := h
  by_cases hfix : p (p j) = p j
  · have hpj : p j = j := p.injective hfix
    exact ⟨j, hj1, hj2, congrArg a hpj⟩
  · obtain ⟨h1, h2⟩ := hp _ hfix
    exact ⟨p j, h1, h2, rfl⟩

/-- The elements are the same up to their order. -/
theorem Rearranged.perm (h : Rearranged 1 n a b) :
    ((List.range n).map fun k => b (k + 1)).Perm ((List.range n).map fun k => a (k + 1)) := by
  obtain ⟨p, hp, rfl⟩ := h
  have hlist : ∀ f : Nat → α, ((List.range n).map fun k => f (k + 1)) =
      (List.range' 1 n).map f := by
    intro f
    rw [List.range'_eq_map_range, List.map_map]
    refine List.map_congr_left fun k _ => ?_
    rw [Function.comp_apply, Nat.add_comm]
  have hmem : ∀ j, j ∈ (List.range' 1 n).map p ↔ j ∈ List.range' 1 n := by
    have hin : ∀ j, 1 ≤ p j ∧ p j < 1 + n ↔ 1 ≤ j ∧ j < 1 + n := by
      intro j
      by_cases hfix : p j = j
      · rw [hfix]
      · have h1 := hp j hfix
        have h2 := hp (p j) fun h => hfix (p.injective h)
        omega
    intro j
    simp only [List.mem_map, List.mem_range'_1]
    constructor
    · rintro ⟨k, hk, rfl⟩
      exact (hin k).2 hk
    · intro hj
      refine ⟨p.symm j, (hin _).1 ?_, p.apply_symm_apply j⟩
      rwa [p.apply_symm_apply]
  rw [hlist, hlist, ← List.map_map]
  refine List.Perm.map a ((List.perm_ext_iff_of_nodup ?_ List.nodup_range').2 hmem)
  exact List.Nodup.map p.injective List.nodup_range'

/-! ## Floating down -/

/-- The largest of an element and its children. -/
def largest (gt : α → α → Bool) (a : Nat → α) (cnt i : Nat) : Nat :=
  let max := if 2 * i ≤ cnt && gt (a (2 * i)) (a i) then 2 * i else i
  if 2 * i + 1 ≤ cnt && gt (a (2 * i + 1)) (a max) then 2 * i + 1 else max

/-- Float the element at `i` down. -/
def siftDown (gt : α → α → Bool) (cnt : Nat) : Nat → (Nat → α) → Nat → Nat → α
  | 0, a, _ => a
  | fuel + 1, a, i =>
    let max := largest gt a cnt i
    if max = i then a else siftDown gt cnt fuel (exchange a i max) max

/-- From position `lo` on, no child is greater than its parent. -/
def Heap (gt : α → α → Bool) (lo cnt : Nat) (a : Nat → α) : Prop :=
  ∀ j, lo ≤ j / 2 → j ≤ cnt → gt (a j) (a (j / 2)) = false

/-- A heap in which the element at `i` may be too small: its children are compared with its
parent. -/
structure HeapBut (gt : α → α → Bool) (lo cnt : Nat) (a : Nat → α) (i : Nat) : Prop where
  others : ∀ j, lo ≤ j / 2 → j ≤ cnt → j / 2 ≠ i → gt (a j) (a (j / 2)) = false
  across : ∀ j, lo ≤ i / 2 → j / 2 = i → j ≤ cnt → gt (a j) (a (i / 2)) = false

variable {gt : α → α → Bool} {cnt i : Nat}

theorem largest_cases (gt : α → α → Bool) (a : Nat → α) (cnt i : Nat) :
    largest gt a cnt i = i ∨ (largest gt a cnt i / 2 = i ∧ largest gt a cnt i ≤ cnt) := by
  unfold largest
  dsimp only
  split_ifs with h1 h2 h2
  · simp only [Bool.and_eq_true, decide_eq_true_eq] at h2
    exact Or.inr ⟨by omega, h2.1⟩
  · simp only [Bool.and_eq_true, decide_eq_true_eq] at h1
    exact Or.inr ⟨by omega, h1.1⟩
  · simp only [Bool.and_eq_true, decide_eq_true_eq] at h2
    exact Or.inr ⟨by omega, h2.1⟩
  · exact Or.inl rfl

/-- Neither the element nor a child is greater than the largest. -/
theorem gt_largest (h : Comparison gt) (a : Nat → α) (cnt i : Nat) :
    gt (a i) (a (largest gt a cnt i)) = false ∧
      ∀ j, j / 2 = i → j ≤ cnt → gt (a j) (a (largest gt a cnt i)) = false := by
  obtain ⟨m, hm⟩ : ∃ m, m = if 2 * i ≤ cnt && gt (a (2 * i)) (a i) then 2 * i else i := ⟨_, rfl⟩
  have hfirst : gt (a i) (a m) = false ∧ (2 * i ≤ cnt → gt (a (2 * i)) (a m) = false) := by
    rw [hm]
    split_ifs with h1
    · simp only [Bool.and_eq_true, decide_eq_true_eq] at h1
      exact ⟨h.asymm h1.2, fun _ => h.refl _⟩
    · refine ⟨h.refl _, fun hle => ?_⟩
      simpa [hle] using h1
  have hl : largest gt a cnt i =
      if 2 * i + 1 ≤ cnt && gt (a (2 * i + 1)) (a m) then 2 * i + 1 else m := by
    rw [largest, hm]
  rw [hl]
  split_ifs with h2
  · simp only [Bool.and_eq_true, decide_eq_true_eq] at h2
    have hup := h.asymm h2.2
    refine ⟨h.trans hfirst.1 hup, fun j hj hle => ?_⟩
    rcases (by omega : j = 2 * i ∨ j = 2 * i + 1) with rfl | rfl
    · exact h.trans (hfirst.2 hle) hup
    · exact h.refl _
  · refine ⟨hfirst.1, fun j hj hle => ?_⟩
    rcases (by omega : j = 2 * i ∨ j = 2 * i + 1) with rfl | rfl
    · exact hfirst.2 hle
    · simpa [hle] using h2

/-- Exchanging an element with its largest child moves the place that may be wrong to the child. -/
theorem HeapBut.exchange (hgt : Comparison gt) (h : HeapBut gt lo cnt a i) (hlo : 1 ≤ lo)
    (hi : lo ≤ i) {m : Nat} (hm : m = largest gt a cnt i) (hchild : m / 2 = i) (hle : m ≤ cnt) :
    HeapBut gt lo cnt (exchange a i m) m := by
  obtain ⟨hself, hchildren⟩ := gt_largest hgt a cnt i
  rw [← hm] at hself hchildren
  constructor
  · intro j hj hjc hjm
    by_cases hji : j / 2 = i
    · -- a child of `i`, where the largest child is now
      rw [hji, exchange_left]
      by_cases hjm' : j = m
      · rw [hjm', exchange_right]
        exact hself
      · rw [exchange_of_ne (by omega) hjm']
        exact hchildren j hji hjc
    · rw [exchange_of_ne (k := j / 2) hji hjm]
      by_cases hij : j = i
      · -- `i` itself, against its parent
        rw [hij, exchange_left]
        exact h.across m (by omega) hchild hle
      · rw [exchange_of_ne hij (by omega)]
        exact h.others j hj hjc hji
  · intro j _ hj hjc
    rw [hchild, exchange_left, exchange_of_ne (by omega) (by omega)]
    have := h.others j (by omega) hjc (by omega)
    rwa [hj] at this

/-- Floating down repairs the heap. -/
theorem siftDown_heap (hgt : Comparison gt) (hlo : 1 ≤ lo) {fuel : Nat} (h : HeapBut gt lo cnt a i)
    (hi : lo ≤ i) (hfuel : cnt - i < fuel) : Heap gt lo cnt (siftDown gt cnt fuel a i) := by
  induction fuel generalizing a i with
  | zero => omega
  | succ fuel ih =>
    rw [siftDown]
    split_ifs with hmax
    · intro j hj hjc
      by_cases hji : j / 2 = i
      · have := (gt_largest hgt a cnt i).2 j hji hjc
        rw [hmax] at this
        rwa [hji]
      · exact h.others j hj hjc hji
    · obtain ⟨hchild, hle⟩ := (largest_cases gt a cnt i).resolve_left hmax
      exact ih (h.exchange hgt hlo hi rfl hchild hle) (by omega) (by omega)

theorem siftDown_rearranged (gt : α → α → Bool) (hi : lo ≤ i) (hcnt : i ≤ cnt) (fuel : Nat)
    (a : Nat → α) : Rearranged lo cnt a (siftDown gt cnt fuel a i) := by
  induction fuel generalizing a i with
  | zero => exact .refl ..
  | succ fuel ih =>
    rw [siftDown]
    split_ifs with hmax
    · exact .refl ..
    · obtain ⟨hchild, hle⟩ := (largest_cases gt a cnt i).resolve_left hmax
      exact (rearranged_exchange hi hcnt (by omega) hle).trans (ih (by omega) hle _)

/-! ## Sorting -/

/-- Make a heap: float down the elements from position `i` to 1. -/
def build (gt : α → α → Bool) (cnt : Nat) : Nat → (Nat → α) → Nat → α
  | 0, a => a
  | i + 1, a => build gt cnt i (siftDown gt cnt (cnt + 1) a (i + 1))

/-- Take the largest element to the end of the heap and repair the heap without it. -/
def drain (gt : α → α → Bool) : Nat → (Nat → α) → Nat → α
  | 0, a => a
  | 1, a => a
  | i + 2, a => drain gt (i + 1) (siftDown gt (i + 1) (i + 2) (exchange a 1 (i + 2)) 1)

/-- Heap sort. -/
def heapSort (gt : α → α → Bool) (cnt : Nat) (a : Nat → α) : Nat → α :=
  drain gt cnt (build gt cnt (cnt / 2) a)

theorem build_heap (hgt : Comparison gt) (h : Heap gt (n + 1) cnt a) :
    Heap gt 1 cnt (build gt cnt n a) := by
  induction n generalizing a with
  | zero => exact h
  | succ n ih =>
    refine ih (siftDown_heap hgt (Nat.succ_pos n) ⟨?_, ?_⟩ le_rfl (by omega))
    · intro j hj hjc hne
      exact h j (by omega) hjc
    · omega

theorem build_rearranged (gt : α → α → Bool) (hn : n ≤ cnt) (a : Nat → α) :
    Rearranged 1 cnt a (build gt cnt n a) := by
  induction n generalizing a with
  | zero => exact .refl ..
  | succ n ih =>
    have hsift := siftDown_rearranged gt (le_refl (n + 1)) hn (cnt + 1) a
    exact (hsift.mono (Nat.succ_pos n) le_rfl).trans (ih (by omega) _)

/-- The root of a heap is the greatest element. -/
theorem Heap.root (hgt : Comparison gt) (h : Heap gt 1 cnt a) (hj : 1 ≤ j) (hjc : j ≤ cnt) :
    gt (a j) (a 1) = false := by
  induction j using Nat.strong_induction_on with
  | _ j ih =>
    rcases Nat.eq_or_lt_of_le hj with rfl | hlt
    · exact hgt.refl _
    · exact hgt.trans (h j (by omega) hjc) (ih (j / 2) (by omega) (by omega) (by omega))

/-- The elements after position `i` are in order and not less than those before. -/
def Drained (gt : α → α → Bool) (i cnt : Nat) (a : Nat → α) : Prop :=
  ∀ j k, 1 ≤ j → j < k → i < k → k ≤ cnt → gt (a j) (a k) = false

/-- One round of the sorting loop. -/
theorem drained_step (hgt : Comparison gt) {i : Nat} (hheap : Heap gt 1 (i + 2) a)
    (h : Drained gt (i + 2) cnt a) :
    Heap gt 1 (i + 1) (siftDown gt (i + 1) (i + 2) (exchange a 1 (i + 2)) 1) ∧
      Drained gt (i + 1) cnt (siftDown gt (i + 1) (i + 2) (exchange a 1 (i + 2)) 1) := by
  have hbut : HeapBut gt 1 (i + 1) (exchange a 1 (i + 2)) 1 := by
    constructor
    · intro j hj hjc hne
      rw [exchange_of_ne (by omega) (by omega), exchange_of_ne (by omega) (by omega)]
      exact hheap j hj (by omega)
    · intro j hj
      omega
  refine ⟨siftDown_heap hgt le_rfl hbut le_rfl (by omega), ?_⟩
  have hre := siftDown_rearranged gt le_rfl (by omega : 1 ≤ i + 1) (i + 2)
    (exchange a 1 (i + 2))
  -- an element among the first `i + 1` comes from the first `i + 2` of the old array
  have hold : ∀ j, 1 ≤ j → j ≤ i + 1 → ∃ k, 1 ≤ k ∧ k ≤ i + 2 ∧
      siftDown gt (i + 1) (i + 2) (exchange a 1 (i + 2)) 1 j = a k := by
    intro j hj1 hj2
    obtain ⟨k, hk1, hk2, hjk⟩ := hre.inside hj1 hj2
    by_cases hk : k = 1
    · refine ⟨i + 2, by omega, le_rfl, ?_⟩
      rw [hjk, hk, exchange_left]
    · refine ⟨k, hk1, by omega, ?_⟩
      rw [hjk, exchange_of_ne hk (by omega)]
  intro j k hj hjk hik hk
  rw [hre.outside (by omega : ¬ (1 ≤ k ∧ k ≤ i + 1))]
  by_cases hki : k = i + 2
  · -- the old root is not less than what is left
    subst hki
    rw [exchange_right]
    obtain ⟨k', h1, h2, hjk'⟩ := hold j hj (by omega)
    rw [hjk']
    exact hheap.root hgt h1 h2
  · rw [exchange_of_ne (k := k) (by omega) (by omega)]
    by_cases hji : j ≤ i + 1
    · obtain ⟨k', h1, h2, hjk'⟩ := hold j hj hji
      rw [hjk']
      exact h k' k h1 (by omega) (by omega) hk
    · rw [hre.outside (by omega)]
      by_cases hj2 : j = i + 2
      · rw [hj2, exchange_right]
        exact h 1 k le_rfl (by omega) (by omega) hk
      · rw [exchange_of_ne (by omega) hj2]
        exact h j k hj hjk (by omega) hk

theorem drain_sorted (hgt : Comparison gt) (hn : n ≤ cnt) (hheap : Heap gt 1 n a)
    (h : Drained gt n cnt a) : Drained gt 0 cnt (drain gt n a) := by
  induction n, a using drain.induct gt with
  | case1 a => exact h
  | case2 a => exact fun j k hj hjk _ hk => h j k hj hjk (by omega) hk
  | case3 i a ih =>
    obtain ⟨hheap', h'⟩ := drained_step hgt hheap h
    exact ih (by omega) hheap' h'

theorem drain_rearranged (gt : α → α → Bool) (hn : n ≤ cnt) (a : Nat → α) :
    Rearranged 1 cnt a (drain gt n a) := by
  induction n, a using drain.induct gt with
  | case1 a => exact .refl ..
  | case2 a => exact .refl ..
  | case3 i a ih =>
    have hsift := siftDown_rearranged gt le_rfl (by omega : 1 ≤ i + 1) (i + 2)
      (exchange a 1 (i + 2))
    have hex : Rearranged 1 cnt a (exchange a 1 (i + 2)) :=
      rearranged_exchange le_rfl (by omega) (by omega) hn
    exact (hex.trans (hsift.mono le_rfl (by omega))).trans (ih (by omega))

theorem heapSort_rearranged (gt : α → α → Bool) (cnt : Nat) (a : Nat → α) :
    Rearranged 1 cnt a (heapSort gt cnt a) :=
  (build_rearranged gt (Nat.div_le_self cnt 2) a).trans (drain_rearranged gt le_rfl _)

/-- The sorted array. -/
theorem heapSort_sorted (hgt : Comparison gt) (cnt : Nat) (a : Nat → α) {k : Nat} (hj : 1 ≤ j)
    (hjk : j < k) (hk : k ≤ cnt) : gt (heapSort gt cnt a j) (heapSort gt cnt a k) = false := by
  have hheap : Heap gt 1 cnt (build gt cnt (cnt / 2) a) := build_heap hgt fun j _ _ => by omega
  have hdrained : Drained gt cnt cnt (build gt cnt (cnt / 2) a) := fun j k _ _ _ _ => by omega
  exact drain_sorted hgt le_rfl hheap hdrained j k hj hjk (by omega) hk

end Pintos.Lib.HeapSort
