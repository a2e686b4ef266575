import Pintos.Lib.StateExcept
import Pintos.Lib.ByteMemory
import Pintos.Lib.HeapSort

/-!
# Sorting and searching

`sort`, `qsort`, `binary_search` and `bsearch` of `lib/stdlib.c` on a memory of bytes. An array is
an address and a number of elements of `size` bytes each; a comparison function is called with the
bytes of two elements. The functions may access one block of memory, and any other access stops
them. `arrayOf` reads the memory as an array with 1-based positions, as `heapify` counts them. The
functions then refine heap sort on such an array: the byte-wise exchange is an exchange of two
positions, and the index computations do not wrap.
-/

set_option autoImplicit false

namespace Pintos.LibC.Stdlib

open Function Lib.StateExcept Lib.ByteMemory Lib.HeapSort

/-! ## The functions -/

/-- Why a function stops. -/
inductive Fault where
  | assertion
  | outsideBlock
  | endless
  deriving DecidableEq, Repr

/-- Code on a memory of bytes. -/
abbrev Code (α : Type) : Type := Comp Bytes Fault α

/-- The bytes of an element. -/
abbrev Elem (size : Nat) : Type := Fin size → UInt8

/-- The memory that a function may access. -/
structure Block where
  base : Nat
  bytes : Nat

/-- Read a byte. -/
def load (r : Block) (p : Nat) : Code UInt8 := do
  check (r.base ≤ p ∧ p < r.base + r.bytes) .outsideBlock
  return (← get) p

/-- Write a byte. -/
def store (r : Block) (p : Nat) (v : UInt8) : Code Unit := do
  check (r.base ≤ p ∧ p < r.base + r.bytes) .outsideBlock
  modify fun m => update m p v

/-- What a comparison function sees of the element at `p`. -/
def loadElem (r : Block) (size p : Nat) : Code (Elem size) := do
  check (r.base ≤ p ∧ p + size ≤ r.base + r.bytes) .outsideBlock
  let m ← get
  return fun k => m (p + k)

section Functions

variable (r : Block) (array size : Nat)

/-- `array + (idx - 1) * size`. -/
def elemAddr (idx : Nat) : Nat := (array + (idx + 2 ^ 64 - 1) % 2 ^ 64 * size) % 2 ^ 64

/-- `do_swap`. -/
def doSwap (aIdx bIdx : Nat) : Code Unit := do
  let a := elemAddr array size aIdx
  let b := elemAddr array size bIdx
  (List.range size).forM fun i => do
    let t ← load r (a + i)
    store r (a + i) (← load r (b + i))
    store r (b + i) t

variable {Aux : Type} (compare : Elem size → Elem size → Aux → Int) (aux : Aux)

/-- `do_compare`. -/
def doCompare (aIdx bIdx : Nat) : Code Int := do
  let a ← loadElem r size (elemAddr array size aIdx)
  let b ← loadElem r size (elemAddr array size bIdx)
  return compare a b aux

/-- `if (idx <= cnt && do_compare (array, idx, max, …) > 0) max = idx;` -/
def largerOf (cnt idx max : Nat) : Code Nat := do
  if idx ≤ cnt then
    let cmp ← doCompare r array size compare aux idx max
    return if cmp > 0 then idx else max
  else
    return max

/-- The first part of the loop of `heapify`: the index of the largest element among `i` and its
children. -/
def largestOf (cnt i : Nat) : Code Nat := do
  let left := 2 * i % 2 ^ 64
  let right := (2 * i + 1) % 2 ^ 64
  let max ← largerOf r array size compare aux cnt left i
  largerOf r array size compare aux cnt right max

/-- The loop of `heapify`. -/
def heapifyFrom (cnt : Nat) : Nat → Nat → Code Unit
  | 0, _ => throw .endless
  | fuel + 1, i => do
    let max ← largestOf r array size compare aux cnt i
    if max = i then
      return
    doSwap r array size i max
    heapifyFrom cnt fuel max

/-- `heapify`: an element moves down at most once for each position. -/
def heapify (i cnt : Nat) : Code Unit := heapifyFrom r array size compare aux cnt (cnt + 1) i

/-- The loop of `sort` that builds a heap. -/
def buildHeap (cnt : Nat) : Nat → Code Unit
  | 0 => return
  | i + 1 => do
    heapify r array size compare aux (i + 1) cnt
    buildHeap cnt i

/-- The loop of `sort` that sorts the heap. -/
def sortHeap : Nat → Code Unit
  | 0 => return
  | 1 => return
  | i + 2 => do
    doSwap r array size 1 (i + 2)
    heapify r array size compare aux 1 (i + 1)
    sortHeap (i + 1)

/-- `sort`. -/
def sort (cnt : Nat) : Code Unit := do
  check (array ≠ 0 ∨ cnt = 0) .assertion
  check (0 < size) .assertion
  buildHeap r array size compare aux cnt (cnt / 2)
  sortHeap r array size compare aux cnt

/-- The loop of `binary_search`. -/
def searchFrom (key : Elem size) : Nat → Nat → Nat → Code (Option Nat)
  | 0, _, _ => throw .endless
  | fuel + 1, first, last => do
    if first < last then
      let range := (last - first) / size
      let middle := (first + range / 2 * size) % 2 ^ 64
      let cmp := compare key (← loadElem r size middle) aux
      if cmp < 0 then
        searchFrom key fuel first middle
      else if cmp > 0 then
        searchFrom key fuel ((middle + size) % 2 ^ 64) last
      else
        return some middle
    else
      return none

/-- `binary_search`; each round leaves fewer elements. -/
def binarySearch (key : Elem size) (cnt : Nat) : Code (Option Nat) :=
  searchFrom r size compare aux key (cnt + 1) array ((array + size * cnt) % 2 ^ 64)

end Functions

/-- `compare_thunk`: the auxiliary data is the comparison function. -/
def compareThunk {size : Nat} (a b : Elem size) (compare : Elem size → Elem size → Int) : Int :=
  compare a b

/-- `qsort`. -/
def qsort (r : Block) (array cnt size : Nat) (compare : Elem size → Elem size → Int) : Code Unit :=
  sort r array size compareThunk compare cnt

/-- `bsearch`. -/
def bsearch (r : Block) {size : Nat} (key : Elem size) (array cnt : Nat)
    (compare : Elem size → Elem size → Int) : Code (Option Nat) :=
  binarySearch r array size compareThunk compare key cnt

/-! ## Arrays -/

/-- An array of `n` elements at `array`: no object has more than `PTRDIFF_MAX` bytes, and the
address after its end is an address. -/
structure IsArray (array n size : Nat) : Prop where
  fits : array + n * size < 2 ^ 64
  bytes : n * size < 2 ^ 63
  elem : 0 < size

/-- The block of memory that an array takes. -/
def blockOf (array n size : Nat) : Block := ⟨array, n * size⟩

/-- The elements of an array, at the positions from 1 to `n`. -/
def arrayOf (array n size : Nat) (m : Bytes) (idx : Nat) : Elem size :=
  if 1 ≤ idx ∧ idx ≤ n then fun k => m (array + (idx - 1) * size + k) else fun _ => 0

/-- The memory `m'` differs from `m` in the array only, and holds the array `a`. -/
structure Became (array n size : Nat) (m : Bytes) (a : Nat → Elem size) (m' : Bytes) : Prop where
  elems : arrayOf array n size m' = a
  frame : ∀ p, ¬ (array ≤ p ∧ p < array + n * size) → m' p = m p

section Elements

variable {array n size i j : Nat} {m m' : Bytes} {r : Block} {p : Nat}

theorem IsArray.count (h : IsArray array n size) : n < 2 ^ 63 := by
  have h1 : n * 1 ≤ n * size := Nat.mul_le_mul_left n h.elem
  have h2 := h.bytes
  omega

/-- An element lies inside its array. -/
theorem elem_end_le (size : Nat) (h1 : 1 ≤ i) (h2 : i ≤ n) : (i - 1) * size + size ≤ n * size := by
  rw [← Nat.succ_mul]
  exact Nat.mul_le_mul_right size (by omega)

theorem elemAddr_eq (h : IsArray array n size) (h1 : 1 ≤ i) (h2 : i ≤ n) :
    elemAddr array size i = array + (i - 1) * size := by
  have hcnt := h.count
  have hfits := h.fits
  have hend := elem_end_le size h1 h2
  have hidx : (i + 2 ^ 64 - 1) % 2 ^ 64 = i - 1 := by omega
  rw [elemAddr, hidx]
  exact Nat.mod_eq_of_lt (by omega)

/-- Different elements do not overlap. -/
theorem elem_disjoint (size : Nat) (h1 : 1 ≤ i) (h2 : 1 ≤ j) (hne : i ≠ j) :
    (i - 1) * size + size ≤ (j - 1) * size ∨ (j - 1) * size + size ≤ (i - 1) * size := by
  rcases Nat.lt_or_gt_of_ne hne with h | h
  · refine Or.inl ?_
    rw [← Nat.succ_mul]
    exact Nat.mul_le_mul_right size (by omega)
  · refine Or.inr ?_
    rw [← Nat.succ_mul]
    exact Nat.mul_le_mul_right size (by omega)

theorem arrayOf_apply (h1 : 1 ≤ i) (h2 : i ≤ n) (k : Fin size) :
    arrayOf array n size m i k = m (array + (i - 1) * size + k) := by
  rw [arrayOf, if_pos ⟨h1, h2⟩]

theorem wp_load (hp : r.base ≤ p ∧ p < r.base + r.bytes) (Q : UInt8 → Bytes → Prop) :
    wp (load r p) m Q ↔ Q (m p) m := by
  rw [load, wp_bind, wp_check, wp_bind, wp_get, wp_pure]
  exact and_iff_right hp

theorem wp_store {v : UInt8} (hp : r.base ≤ p ∧ p < r.base + r.bytes) (Q : Unit → Bytes → Prop) :
    wp (store r p v) m Q ↔ Q () (update m p v) := by
  rw [store, wp_bind, wp_check, wp_modify]
  exact and_iff_right hp

/-- The first `k` bytes of two blocks of memory exchanged. -/
def swappedBytes (m : Bytes) (a b k : Nat) : Bytes := fun p =>
  if a ≤ p ∧ p < a + k then m (b + (p - a)) else if b ≤ p ∧ p < b + k then m (a + (p - b)) else m p

/-- `do_swap` exchanges two elements of the array. -/
theorem wp_doSwap (h : IsArray array n size) (hi1 : 1 ≤ i) (hi2 : i ≤ n) (hj1 : 1 ≤ j) (hj2 : j ≤ n)
    (hne : i ≠ j) :
    wp (doSwap (blockOf array n size) array size i j) m fun _ m' =>
      Became array n size m (exchange (arrayOf array n size m) i j) m' := by
  have hiend := elem_end_le size hi1 hi2
  have hjend := elem_end_le size hj1 hj2
  have hdis := elem_disjoint size hi1 hj1 hne
  rw [doSwap, elemAddr_eq h hi1 hi2, elemAddr_eq h hj1 hj2]
  obtain ⟨a, ha⟩ : ∃ a, a = array + (i - 1) * size := ⟨_, rfl⟩
  obtain ⟨b, hb⟩ : ∃ b, b = array + (j - 1) * size := ⟨_, rfl⟩
  rw [← ha, ← hb]
  refine wp_mono (wp_forM_range (I := fun k t => t = swappedBytes m a b k) ?_ ?_) ?_
  · funext p
    rw [swappedBytes, if_neg (by omega), if_neg (by omega)]
  · -- a round exchanges one more byte
    rintro k hk t rfl
    have hina : array ≤ a + k ∧ a + k < array + n * size := by omega
    have hinb : array ≤ b + k ∧ b + k < array + n * size := by omega
    rw [wp_bind, wp_load hina, wp_bind, wp_load hinb, wp_bind, wp_store hina, wp_store hinb]
    funext p
    by_cases hpb : p = b + k
    · subst hpb
      rw [update_self, swappedBytes, swappedBytes, if_neg (by omega), if_neg (by omega),
        if_neg (by omega), if_pos (by omega)]
      congr 1
      omega
    · rw [update_of_ne hpb]
      by_cases hpa : p = a + k
      · subst hpa
        rw [update_self, swappedBytes, swappedBytes, if_neg (by omega), if_neg (by omega),
          if_pos (by omega)]
        congr 1
        omega
      · rw [update_of_ne hpa, swappedBytes, swappedBytes]
        by_cases h1 : a ≤ p ∧ p < a + k
        · rw [if_pos h1, if_pos (by omega)]
        · rw [if_neg h1, if_neg (c := a ≤ p ∧ p < a + (k + 1)) (by omega)]
          by_cases h2 : b ≤ p ∧ p < b + k
          · rw [if_pos h2, if_pos (by omega)]
          · rw [if_neg h2, if_neg (by omega)]
  · rintro - t rfl
    constructor
    · funext idx
      by_cases hidx : 1 ≤ idx ∧ idx ≤ n
      · funext k
        rw [arrayOf_apply hidx.1 hidx.2]
        by_cases hii : idx = i
        · subst hii
          rw [exchange_left, arrayOf_apply hj1 hj2, ← ha, ← hb, swappedBytes, if_pos (by omega)]
          congr 1
          omega
        · by_cases hjj : idx = j
          · subst hjj
            rw [exchange_right, arrayOf_apply hi1 hi2, ← ha, ← hb, swappedBytes, if_neg (by omega),
              if_pos (by omega)]
            congr 1
            omega
          · have hd1 := elem_disjoint size hidx.1 hi1 hii
            have hd2 := elem_disjoint size hidx.1 hj1 hjj
            rw [exchange_of_ne hii hjj, arrayOf_apply hidx.1 hidx.2, swappedBytes,
              if_neg (by omega), if_neg (by omega)]
      · have hii : idx ≠ i := by omega
        have hjj : idx ≠ j := by omega
        rw [exchange_of_ne hii hjj, arrayOf, arrayOf, if_neg hidx, if_neg hidx]
    · intro p hp
      rw [swappedBytes, if_neg (by omega), if_neg (by omega)]

end Elements

/-! ## Heap sort in memory -/

variable {fuel : Nat}

section Sorting

variable {array n size i : Nat} {m m' : Bytes} {a : Nat → Elem size} {Aux : Type}
  {compare : Elem size → Elem size → Aux → Int} {aux : Aux} {cnt k : Nat}

/-- The test for "greater" that the comparison function gives. -/
def greater (compare : Elem size → Elem size → Aux → Int) (aux : Aux) (x y : Elem size) : Bool :=
  decide (compare x y aux > 0)

theorem Became.trans {m'' : Bytes} {b : Nat → Elem size} (h : Became array n size m a m')
    (h' : Became array n size m' b m'') : Became array n size m b m'' :=
  ⟨h'.elems, fun p hp => (h'.frame p hp).trans (h.frame p hp)⟩

theorem reads_loadElem (h1 : 1 ≤ i) (h2 : i ≤ n) :
    Reads (loadElem (blockOf array n size) size (array + (i - 1) * size)) m
      (arrayOf array n size m i) := by
  have hend := elem_end_le size h1 h2
  have hin : array ≤ array + (i - 1) * size ∧
      array + (i - 1) * size + size ≤ array + n * size := by omega
  refine (Reads.check hin _).bind (Reads.bind (a := m) rfl ?_)
  rw [arrayOf, if_pos ⟨h1, h2⟩]
  rfl

section

variable (h : IsArray array n size)
include h

theorem reads_doCompare {j : Nat} (hi1 : 1 ≤ i) (hi2 : i ≤ n) (hj1 : 1 ≤ j) (hj2 : j ≤ n) :
    Reads (doCompare (blockOf array n size) array size compare aux i j) m
      (compare (arrayOf array n size m i) (arrayOf array n size m j) aux) := by
  rw [doCompare, elemAddr_eq h hi1 hi2, elemAddr_eq h hj1 hj2]
  exact (reads_loadElem hi1 hi2).bind ((reads_loadElem hj1 hj2).bind rfl)

theorem reads_largerOf {idx max : Nat} (hcnt : cnt ≤ n) (h1 : 1 ≤ idx) (hm1 : 1 ≤ max)
    (hm2 : max ≤ n) :
    Reads (largerOf (blockOf array n size) array size compare aux cnt idx max) m
      (if idx ≤ cnt && greater compare aux (arrayOf array n size m idx) (arrayOf array n size m max)
        then idx else max) := by
  rw [largerOf]
  by_cases hle : idx ≤ cnt
  · rw [if_pos hle]
    refine (reads_doCompare h h1 (hle.trans hcnt) hm1 hm2).bind ?_
    simp only [hle, greater, decide_true, Bool.true_and, decide_eq_true_eq]
    rfl
  · simp only [hle, decide_false, Bool.false_and, Bool.false_eq_true, if_false]
    rfl

/-- The two comparisons of a round find the largest element. -/
theorem reads_largestOf (hcnt : cnt ≤ n) (hi1 : 1 ≤ i) (hi2 : i ≤ cnt) :
    Reads (largestOf (blockOf array n size) array size compare aux cnt i) m
      (largest (greater compare aux) (arrayOf array n size m) cnt i) := by
  have hn := h.count
  have hleft : 2 * i % 2 ^ 64 = 2 * i := Nat.mod_eq_of_lt (by omega)
  have hright : (2 * i + 1) % 2 ^ 64 = 2 * i + 1 := Nat.mod_eq_of_lt (by omega)
  rw [largestOf, hleft, hright]
  refine (reads_largerOf h hcnt (by omega) hi1 (hi2.trans hcnt)).bind ?_
  refine reads_largerOf h hcnt (by omega) ?_ ?_
  · split_ifs <;> omega
  · split_ifs with hc
    · simp only [Bool.and_eq_true, decide_eq_true_eq] at hc
      exact hc.1.trans hcnt
    · exact hi2.trans hcnt

/-- `heapify` floats an element down. -/
theorem wp_heapifyFrom (hcnt : cnt ≤ n) (hi1 : 1 ≤ i) (hi2 : i ≤ cnt) (hfuel : cnt - i < fuel) :
    wp (heapifyFrom (blockOf array n size) array size compare aux cnt fuel i) m fun _ m' =>
      Became array n size m
        (siftDown (greater compare aux) cnt fuel (arrayOf array n size m) i) m' := by
  induction fuel generalizing i m with
  | zero => omega
  | succ fuel ih =>
    have hcases := largest_cases (greater compare aux) (arrayOf array n size m) cnt i
    rw [heapifyFrom, wp_bind, siftDown]
    refine ⟨_, m, reads_largestOf h hcnt hi1 hi2, ?_⟩
    generalize largest (greater compare aux) (arrayOf array n size m) cnt i = max at hcases ⊢
    split_ifs with hmax
    · exact (wp_pure _ _ _).2 ⟨rfl, fun _ _ => rfl⟩
    · obtain ⟨hchild, hle⟩ := hcases.resolve_left hmax
      rw [wp_bind]
      refine wp_mono (wp_doSwap h hi1 (hi2.trans hcnt) (by omega) (hle.trans hcnt)
        (fun e => hmax e.symm)) ?_
      intro _ m₁ h₁
      refine wp_mono (ih (by omega) hle (by omega)) ?_
      intro _ m₂ h₂
      rw [h₁.elems] at h₂
      exact h₁.trans h₂

theorem wp_heapify (hcnt : cnt ≤ n) (hi1 : 1 ≤ i) (hi2 : i ≤ cnt) :
    wp (heapify (blockOf array n size) array size compare aux i cnt) m fun _ m' =>
      Became array n size m
        (siftDown (greater compare aux) cnt (cnt + 1) (arrayOf array n size m) i) m' :=
  wp_heapifyFrom h hcnt hi1 hi2 (by omega)

theorem wp_buildHeap (hk : k ≤ n) :
    wp (buildHeap (blockOf array n size) array size compare aux n k) m fun _ m' =>
      Became array n size m (build (greater compare aux) n k (arrayOf array n size m)) m' := by
  induction k generalizing m with
  | zero => exact (wp_pure _ _ _).2 ⟨rfl, fun _ _ => rfl⟩
  | succ k ih =>
    rw [buildHeap, wp_bind, build]
    refine wp_mono (wp_heapify h le_rfl (by omega) hk) ?_
    intro _ m₁ h₁
    refine wp_mono (ih (by omega)) ?_
    intro _ m₂ h₂
    rw [h₁.elems] at h₂
    exact h₁.trans h₂

theorem wp_sortHeap (hk : k ≤ n) :
    wp (sortHeap (blockOf array n size) array size compare aux k) m fun _ m' =>
      Became array n size m (drain (greater compare aux) k (arrayOf array n size m)) m' := by
  induction k using Nat.strong_induction_on generalizing m with
  | _ k ih =>
    match k, hk, ih with
    | 0, _, _ => exact (wp_pure _ _ _).2 ⟨rfl, fun _ _ => rfl⟩
    | 1, _, _ => exact (wp_pure _ _ _).2 ⟨rfl, fun _ _ => rfl⟩
    | k + 2, hk, ih =>
      rw [sortHeap, wp_bind, drain]
      refine wp_mono (wp_doSwap h le_rfl (by omega) (by omega) hk (by omega)) ?_
      intro _ m₁ h₁
      rw [wp_bind]
      refine wp_mono (wp_heapify h (by omega) le_rfl (by omega)) ?_
      intro _ m₂ h₂
      rw [h₁.elems] at h₂
      refine wp_mono (ih (k + 1) (by omega) (by omega)) ?_
      intro _ m₃ h₃
      rw [h₂.elems] at h₃
      exact (h₁.trans h₂).trans h₃

/-- `sort` is heap sort on the array. -/
theorem wp_sort (hnull : array ≠ 0 ∨ n = 0) :
    wp (sort (blockOf array n size) array size compare aux n) m fun _ m' =>
      Became array n size m (heapSort (greater compare aux) n (arrayOf array n size m)) m' := by
  rw [sort, wp_bind, wp_check, wp_bind, wp_check, wp_bind]
  refine ⟨hnull, h.elem, ?_⟩
  refine wp_mono (wp_buildHeap h (Nat.div_le_self n 2)) ?_
  intro _ m₁ h₁
  refine wp_mono (wp_sortHeap h le_rfl) ?_
  intro _ m₂ h₂
  rw [h₁.elems] at h₂
  exact h₁.trans h₂

end

end Sorting

/-! ## Binary search -/

/-- The elements of an array. -/
def elemsOf (array n size : Nat) (m : Bytes) : List (Elem size) :=
  (List.range n).map fun k => fun j => m (array + k * size + j)

/-- A comparison function is a total preorder: its sign turns around with its arguments, and "not
greater" is transitive. -/
structure TotalPreorder {size : Nat} {Aux : Type} (compare : Elem size → Elem size → Aux → Int)
    (aux : Aux) : Prop where
  swap : ∀ x y, 0 < compare x y aux ↔ compare y x aux < 0
  trans : ∀ x y z, compare x y aux ≤ 0 → compare y z aux ≤ 0 → compare x z aux ≤ 0

section Searching

variable {array n size : Nat} {m : Bytes} {Aux : Type}
  {compare : Elem size → Elem size → Aux → Int} {aux : Aux} {key x y : Elem size}

theorem elemsOf_eq : elemsOf array n size m =
    (List.range n).map fun k => arrayOf array n size m (k + 1) := by
  refine List.map_congr_left fun k hk => ?_
  have hk' := List.mem_range.1 hk
  rw [arrayOf, if_pos (by omega), Nat.add_sub_cancel]

theorem TotalPreorder.less_of_less (h : TotalPreorder compare aux) (hx : compare key x aux < 0)
    (hxy : compare x y aux ≤ 0) : compare key y aux < 0 := by
  by_contra hy
  have hyk : compare y key aux ≤ 0 := not_lt.1 fun hlt => hy ((h.swap y key).1 hlt)
  exact absurd ((h.swap x key).2 hx) (not_lt.2 (h.trans x y key hxy hyk))

theorem TotalPreorder.greater_of_greater (h : TotalPreorder compare aux)
    (hx : 0 < compare key x aux) (hyx : compare y x aux ≤ 0) : 0 < compare key y aux := by
  by_contra hy
  exact absurd hx (not_lt.2 (h.trans key y x (not_lt.1 hy) hyx))

/-- What a search has to return. -/
def Found (array n size : Nat) (m : Bytes) (compare : Elem size → Elem size → Aux → Int) (aux : Aux)
    (key : Elem size) : Option Nat → Prop
  | some p => ∃ k < n, p = array + k * size ∧ compare key (arrayOf array n size m (k + 1)) aux = 0
  | none => ∀ k < n, compare key (arrayOf array n size m (k + 1)) aux ≠ 0

/-- The search between positions `lo` and `hi`, when the elements before are less than the key and
those after are greater. -/
theorem searchFrom_found (h : IsArray array n size) (hcmp : TotalPreorder compare aux)
    (hsorted : ∀ j k, j < k → k < n →
      compare (arrayOf array n size m (j + 1)) (arrayOf array n size m (k + 1)) aux ≤ 0)
    {lo hi : Nat} (hlo : lo ≤ hi) (hhi : hi ≤ n) (hfuel : hi - lo < fuel)
    (hbelow : ∀ k < lo, 0 < compare key (arrayOf array n size m (k + 1)) aux)
    (habove : ∀ k < n, hi ≤ k → compare key (arrayOf array n size m (k + 1)) aux < 0) :
    ∃ res, Reads (searchFrom (blockOf array n size) size compare aux key fuel (array + lo * size)
      (array + hi * size)) m res ∧ Found array n size m compare aux key res := by
  induction fuel generalizing lo hi with
  | zero => omega
  | succ fuel ih =>
    have hfits := h.fits
    have hsize := h.elem
    rw [searchFrom]
    by_cases hlt : lo < hi
    · have hless : array + lo * size < array + hi * size :=
        Nat.add_lt_add_left (Nat.mul_lt_mul_of_pos_right hlt hsize) array
      have hrange : (array + hi * size - (array + lo * size)) / size = hi - lo := by
        rw [Nat.add_sub_add_left, ← Nat.sub_mul, Nat.mul_div_cancel _ hsize]
      obtain ⟨mid, hmid⟩ : ∃ mid, mid = lo + (hi - lo) / 2 := ⟨_, rfl⟩
      have hmidn : mid < n := by omega
      have hend := elem_end_le size (by omega : 1 ≤ mid + 1) hmidn
      rw [Nat.add_sub_cancel] at hend
      have hmiddle : (array + lo * size + (hi - lo) / 2 * size) % 2 ^ 64 = array + mid * size := by
        rw [add_assoc, ← add_mul, ← hmid]
        exact Nat.mod_eq_of_lt (by omega)
      have hnext : (array + mid * size + size) % 2 ^ 64 = array + (mid + 1) * size := by
        rw [Nat.mod_eq_of_lt (by omega), Nat.succ_mul, add_assoc]
      have hload : Reads (loadElem (blockOf array n size) size (array + mid * size)) m
          (arrayOf array n size m (mid + 1)) := reads_loadElem (by omega) hmidn
      rw [if_pos hless, hrange]
      dsimp only
      rw [hmiddle, hnext]
      rcases lt_trichotomy (compare key (arrayOf array n size m (mid + 1)) aux)
        0 with hneg | hzero | hpos
      · -- the key is less than the middle element, so than all after it
        have habove' : ∀ k < n, mid ≤ k →
            compare key (arrayOf array n size m (k + 1)) aux < 0 := by
          intro k hk hmk
          rcases Nat.eq_or_lt_of_le hmk with rfl | hmk
          · exact hneg
          · exact hcmp.less_of_less hneg (hsorted mid k hmk hk)
        obtain ⟨res, hres, hfound⟩ := ih (by omega) (by omega) (by omega) hbelow habove'
        refine ⟨res, hload.bind ?_, hfound⟩
        rw [if_pos hneg]
        exact hres
      · refine ⟨some (array + mid * size), hload.bind ?_, mid, hmidn, rfl, hzero⟩
        rw [hzero]
        rfl
      · -- the key is greater than the middle element, so than all before it
        have hbelow' : ∀ k < mid + 1, 0 < compare key (arrayOf array n size m (k + 1)) aux := by
          intro k hk
          rcases Nat.eq_or_lt_of_le (Nat.le_of_lt_succ hk) with rfl | hkm
          · exact hpos
          · exact hcmp.greater_of_greater hpos (hsorted k mid hkm hmidn)
        obtain ⟨res, hres, hfound⟩ := ih (by omega) hhi (by omega) hbelow' habove
        refine ⟨res, hload.bind ?_, hfound⟩
        rw [if_neg (not_lt.2 hpos.le), if_pos hpos]
        exact hres
    · -- nothing is left
      have hge : ¬ array + lo * size < array + hi * size := by
        obtain rfl : lo = hi := by omega
        omega
      refine ⟨none, ?_, ?_⟩
      · rw [if_neg hge]
        rfl
      · intro k hk
        rcases Nat.lt_or_ge k lo with hkl | hkl
        · exact ne_of_gt (hbelow k hkl)
        · exact ne_of_lt (habove k hk (by omega))

/-- `binary_search` on a sorted array. -/
theorem binarySearch_found (h : IsArray array n size) (hcmp : TotalPreorder compare aux)
    (hsorted : (elemsOf array n size m).Pairwise fun x y => compare x y aux ≤ 0)
    (key : Elem size) :
    ∃ res, Reads (binarySearch (blockOf array n size) array size compare aux key n) m res ∧
      Found array n size m compare aux key res := by
  have hpairs : ∀ j k, j < k → k < n →
      compare (arrayOf array n size m (j + 1)) (arrayOf array n size m (k + 1)) aux ≤ 0 := by
    intro j k hjk hk
    rw [elemsOf_eq, List.pairwise_map] at hsorted
    have := List.pairwise_iff_getElem.1 hsorted j k (by simpa using hjk.trans hk)
      (by simpa using hk) hjk
    simpa using this
  have hend : (array + size * n) % 2 ^ 64 = array + n * size := by
    rw [mul_comm size n]
    exact Nat.mod_eq_of_lt h.fits
  have hstart : array = array + 0 * size := by omega
  rw [binarySearch, hend]
  nth_rewrite 2 [hstart]
  exact searchFrom_found h hcmp hpairs (Nat.zero_le n) le_rfl (by omega) (fun k hk => by omega)
    fun k hk hnk => by omega

end Searching

/-! ## Both functions on arrays -/

section Arrays

variable {array n size : Nat} {m : Bytes} {Aux : Type}
  {compare : Elem size → Elem size → Aux → Int} {aux : Aux}

theorem comparison_greater (h : TotalPreorder compare aux) : Comparison (greater compare aux) := by
  constructor
  · intro x y hxy
    simp only [greater, decide_eq_true_eq, decide_eq_false_iff_not, gt_iff_lt] at hxy ⊢
    exact not_lt.2 ((h.swap x y).1 hxy).le
  · intro x y z hxy hyz
    simp only [greater, decide_eq_false_iff_not, gt_iff_lt, not_lt] at hxy hyz ⊢
    exact h.trans x y z hxy hyz

/-- What a sorting function has to do to an array. -/
def Sorted (array n size : Nat) (compare : Elem size → Elem size → Aux → Int) (aux : Aux)
    (m m' : Bytes) : Prop :=
  (elemsOf array n size m').Perm (elemsOf array n size m) ∧
    ((elemsOf array n size m').Pairwise fun x y => compare x y aux ≤ 0) ∧
    ∀ p, ¬ (array ≤ p ∧ p < array + n * size) → m' p = m p

theorem wp_sort_sorted (h : IsArray array n size) (hnull : array ≠ 0 ∨ n = 0)
    (hcmp : TotalPreorder compare aux) :
    wp (sort (blockOf array n size) array size compare aux n) m fun _ m' =>
      Sorted array n size compare aux m m' := by
  refine wp_mono (wp_sort h hnull) ?_
  intro _ m' h'
  refine ⟨?_, ?_, h'.frame⟩
  · rw [elemsOf_eq, elemsOf_eq, h'.elems]
    exact (heapSort_rearranged (greater compare aux) n (arrayOf array n size m)).perm
  · rw [elemsOf_eq, h'.elems, List.pairwise_map]
    refine List.Pairwise.imp_of_mem ?_ List.pairwise_lt_range
    intro j k _ hk hjk
    have hk' := List.mem_range.1 hk
    have := heapSort_sorted (comparison_greater hcmp) n (arrayOf array n size m)
      (by omega : 1 ≤ j + 1) (by omega : j + 1 < k + 1) hk'
    simpa [greater] using this

end Arrays

/-- Sorting and searching are correct for every element size, every array and every comparison
function that is a total preorder: `sort` and `qsort` return, with a permutation of the elements in
nondecreasing order, and access the elements only; `binary_search` and `bsearch` return the address
of an element that compares equal to the key, or a null pointer when there is none. -/
theorem sort_search_correct {array n size : Nat} (h : IsArray array n size)
    (hnull : array ≠ 0 ∨ n = 0) (m : Bytes) :
    (∀ (Aux : Type) (compare : Elem size → Elem size → Aux → Int) (aux : Aux),
      TotalPreorder compare aux →
        (wp (sort (blockOf array n size) array size compare aux n) m fun _ m' =>
          Sorted array n size compare aux m m') ∧
        ((elemsOf array n size m).Pairwise (fun x y => compare x y aux ≤ 0) → ∀ key, ∃ res,
          Reads (binarySearch (blockOf array n size) array size compare aux key n) m res ∧
            Found array n size m compare aux key res)) ∧
    ∀ compare : Elem size → Elem size → Int, TotalPreorder compareThunk compare →
      (wp (qsort (blockOf array n size) array n size compare) m fun _ m' =>
        Sorted array n size compareThunk compare m m') ∧
      ((elemsOf array n size m).Pairwise (fun x y => compare x y ≤ 0) → ∀ key, ∃ res,
        Reads (bsearch (blockOf array n size) key array n compare) m res ∧
          Found array n size m compareThunk compare key res) := by
  refine ⟨fun Aux compare aux hcmp => ⟨wp_sort_sorted h hnull hcmp, fun hsorted key => ?_⟩,
    fun compare hcmp => ⟨wp_sort_sorted h hnull hcmp, fun hsorted key => ?_⟩⟩
  · exact binarySearch_found h hcmp hsorted key
  · exact binarySearch_found h hcmp hsorted key

/-- Three elements of two bytes, compared by their first byte only, so that two of them tie. -/
theorem sort_search_correct_ties :
    let m : Bytes := fun p => if p = 4096 then 7 else if p = 4097 then 1 else if p = 4098 then 3
      else if p = 4100 then 7 else 0
    let compare : Elem 2 → Elem 2 → Int := fun x y => (x 0).toNat - (y 0).toNat
    ∃ m', qsort (blockOf 4096 3 2) 4096 3 2 compare m = .ok ((), m') ∧
      (elemsOf 4096 3 2 m').Perm (elemsOf 4096 3 2 m) := by
  intro m compare
  have hcmp : TotalPreorder compareThunk compare := by
    refine ⟨fun x y => ?_, fun x y z => ?_⟩
    · change (0 : Int) < (x 0).toNat - (y 0).toNat ↔ ((y 0).toNat : Int) - (x 0).toNat < 0
      omega
    · change ((x 0).toNat : Int) - (y 0).toNat ≤ 0 → ((y 0).toNat : Int) - (z 0).toNat ≤ 0 →
        ((x 0).toNat : Int) - (z 0).toNat ≤ 0
      omega
  obtain ⟨-, hq⟩ := @sort_search_correct 4096 3 2 ⟨by norm_num, by norm_num, by norm_num⟩
    (Or.inl (by norm_num)) m
  obtain ⟨_, m', hrun, hperm, -⟩ := (hq compare hcmp).1
  exact ⟨m', hrun, hperm⟩

end Pintos.LibC.Stdlib
