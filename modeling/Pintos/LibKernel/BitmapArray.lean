import Pintos.Lib.StateExcept
import Pintos.LibKernel.Bitmap

/-!
# A bitmap is an array of booleans

From the outside a bitmap of `lib/kernel/bitmap.c` is an array of `bit_cnt` booleans. Here the
functions stand with their assertions: an argument out of range stops the kernel, and so does an
access outside the array of elements. `bools` reads a bitmap as a list of booleans, and each
function is compared with the operation on the list that it stands for: no assertion fails on
arguments in range, and the list after the call is the list operation applied to the list before.
-/

set_option autoImplicit false

namespace Pintos.LibKernel.BitmapArray

open Lib.StateExcept List

/-! ## The functions with their assertions -/

/-- Why an operation stops. -/
inductive Fault where
  | assertion
  | outOfBounds
  deriving DecidableEq, Repr

/-- An operation on a bitmap. -/
abbrev Op (α : Type) : Type := Comp Bitmap Fault α

/-- The read-modify-write instruction of `bitmap_mark`, `bitmap_reset` and `bitmap_flip`. -/
def updateElem (bitIdx : Nat) (f : BitVec 64 → BitVec 64) : Op Unit := do
  let b ← get
  check (elemIdx bitIdx < b.bits.length) .outOfBounds
  set (b.modify (elemIdx bitIdx) f)

/-- `bitmap_mark`. -/
def bitmapMark (bitIdx : Nat) : Op Unit := updateElem bitIdx (· ||| bitMask bitIdx)

/-- `bitmap_reset`. -/
def bitmapReset (bitIdx : Nat) : Op Unit := updateElem bitIdx (· &&& ~~~ bitMask bitIdx)

/-- `bitmap_flip`. -/
def bitmapFlip (bitIdx : Nat) : Op Unit := updateElem bitIdx (· ^^^ bitMask bitIdx)

/-- `bitmap_set`. -/
def bitmapSet (idx : Nat) (value : Bool) : Op Unit := do
  let b ← get
  check (idx < b.bitCnt) .assertion
  if value then bitmapMark idx else bitmapReset idx

/-- `bitmap_test`. -/
def bitmapTest (idx : Nat) : Op Bool := do
  let b ← get
  check (idx < b.bitCnt) .assertion
  check (elemIdx idx < b.bits.length) .outOfBounds
  return (b.bits.getD (elemIdx idx) 0 &&& bitMask idx) ≠ 0

/-- The assertions on a range of bits; the sum is of type `size_t`. -/
def assertRange (start cnt : Nat) : Op Unit := do
  let b ← get
  check (start ≤ b.bitCnt) .assertion
  check ((start + cnt) % 2 ^ 64 ≤ b.bitCnt) .assertion

/-- `bitmap_set_multiple`. -/
def bitmapSetMultiple (start cnt : Nat) (value : Bool) : Op Unit := do
  assertRange start cnt
  (List.range cnt).forM fun i => bitmapSet (start + i) value

/-- `bitmap_set_all`. -/
def bitmapSetAll (value : Bool) : Op Unit := do
  let b ← get
  bitmapSetMultiple 0 b.bitCnt value

/-- `bitmap_count`. -/
def bitmapCount (start cnt : Nat) (value : Bool) : Op Nat := do
  assertRange start cnt
  (List.range cnt).foldlM (fun valueCnt i => do
    let bit ← bitmapTest (start + i)
    return if bit == value then valueCnt + 1 else valueCnt) 0

/-- `bitmap_contains`. -/
def bitmapContains (start cnt : Nat) (value : Bool) : Op Bool := do
  assertRange start cnt
  (List.range cnt).anyM fun i => return (← bitmapTest (start + i)) == value

/-- `bitmap_any`. -/
def bitmapAny (start cnt : Nat) : Op Bool := bitmapContains start cnt true

/-- `bitmap_none`. -/
def bitmapNone (start cnt : Nat) : Op Bool := return !(← bitmapContains start cnt true)

/-- `bitmap_all`. -/
def bitmapAll (start cnt : Nat) : Op Bool := return !(← bitmapContains start cnt false)

/-- `bitmap_scan`. -/
def bitmapScan (start cnt : Nat) (value : Bool) : Op Nat := do
  let b ← get
  check (start ≤ b.bitCnt) .assertion
  if cnt ≤ b.bitCnt then
    let last := b.bitCnt - cnt
    let found ← (List.range' start (last + 1 - start)).findM? fun i =>
      return !(← bitmapContains i cnt (!value))
    return found.getD bitmapError
  else
    return bitmapError

/-- `bitmap_scan_and_flip`. -/
def bitmapScanAndFlip (start cnt : Nat) (value : Bool) : Op Nat := do
  let idx ← bitmapScan start cnt value
  if idx ≠ bitmapError then
    bitmapSetMultiple idx cnt (!value)
  return idx

/-! ## The array -/

/-- The bits that a bitmap stands for. -/
def bools (b : Bitmap) : List Bool := (List.range b.bitCnt).map b.test

/-- The elements of an array from `start` on, `cnt` of them. -/
def slice (l : List Bool) (start cnt : Nat) : List Bool := (l.drop start).take cnt

/-- An array with the `cnt` elements from `start` on replaced by `value`. -/
def fill (l : List Bool) (start cnt : Nat) (value : Bool) : List Bool :=
  l.mapIdx fun i x => if start ≤ i ∧ i < start + cnt then value else x

/-- At `i`, not before `start`, there are `cnt` elements and they are all `value`. -/
def IsRun (l : List Bool) (start cnt : Nat) (value : Bool) (i : Nat) : Prop :=
  start ≤ i ∧ i + cnt ≤ l.length ∧ slice l i cnt = List.replicate cnt value

variable {b : Bitmap} {i start cnt : Nat} {value : Bool}

@[simp] theorem length_bools (b : Bitmap) : (bools b).length = b.bitCnt := by
  rw [bools, length_map, length_range]

theorem bools_getElem? (b : Bitmap) (i : Nat) :
    (bools b)[i]? = if i < b.bitCnt then some (b.test i) else none := by
  rw [bools, List.getElem?_map]
  split_ifs with h
  · rw [List.getElem?_range h]
    rfl
  · rw [List.getElem?_eq_none (by simpa using h)]
    rfl

/-- Two bitmaps with the same bits are the same array; only bits below `bit_cnt` count. -/
theorem bools_eq_iff {l : List Bool} :
    bools b = l ↔ l.length = b.bitCnt ∧ ∀ i < b.bitCnt, l[i]? = some (b.test i) := by
  constructor
  · rintro rfl
    refine ⟨length_bools b, ?_⟩
    intro i hi
    rw [bools_getElem?, if_pos hi]
  · rintro ⟨hlen, h⟩
    apply ext_getElem?
    intro i
    rw [bools_getElem?]
    split_ifs with hi
    · exact (h i hi).symm
    · exact (List.getElem?_eq_none (by omega)).symm

theorem slice_bools (h : start + cnt ≤ b.bitCnt) :
    slice (bools b) start cnt = (List.range cnt).map fun i => b.test (start + i) := by
  apply ext_getElem?
  intro i
  rw [slice, List.getElem?_take, List.getElem?_drop, bools_getElem?, List.getElem?_map]
  by_cases hi : i < cnt
  · rw [if_pos hi, if_pos (by omega), List.getElem?_range hi]
    rfl
  · rw [if_neg hi, List.getElem?_eq_none (by simpa using hi)]
    rfl

/-- A run of the array, bit by bit. -/
theorem isRun_bools : IsRun (bools b) start cnt value i ↔
    start ≤ i ∧ i + cnt ≤ b.bitCnt ∧ ∀ k, i ≤ k → k < i + cnt → b.test k = value := by
  rw [IsRun, length_bools]
  refine and_congr_right fun _ => and_congr_right fun hle => ?_
  rw [slice_bools hle, eq_replicate_iff]
  simp only [length_map, length_range, mem_map, mem_range, true_and,
    forall_exists_index, and_imp, forall_apply_eq_imp_iff₂]
  constructor
  · intro h k h1 h2
    have := h (k - i) (by omega)
    rwa [Nat.add_sub_cancel' h1] at this
  · intro h k hk
    exact h (i + k) (by omega) (by omega)

/-! ## Single bits -/

section

variable (hi : i < b.bitCnt)
include hi

theorem wp_updateElem {f : BitVec 64 → BitVec 64} :
    wp (updateElem i f) b fun _ c => c = b.modify (elemIdx i) f := by
  simp only [updateElem, wp_bind, wp_get, wp_check, wp_set, and_true]
  exact Bitmap.elem_lt hi

/-- An update of one element that gives bit `i` a value and keeps every other bit. -/
theorem wp_updateElem_bools {f : BitVec 64 → BitVec 64}
    (htest : ∀ j, (b.modify (elemIdx i) f).test j = if j = i then value else b.test j) :
    wp (updateElem i f) b fun _ c => bools c = (bools b).set i value := by
  refine wp_mono (wp_updateElem hi) ?_
  rintro _ c rfl
  rw [bools_eq_iff]
  refine ⟨by rw [length_set, length_bools]; rfl, ?_⟩
  intro j hj
  have hj' : j < b.bitCnt := hj
  rw [htest, List.getElem?_set, length_bools, bools_getElem?, if_pos hi, if_pos hj']
  by_cases hij : j = i
  · rw [if_pos hij, if_pos hij.symm]
  · rw [if_neg hij, if_neg fun e => hij e.symm]

theorem wp_bitmapMark :
    wp (bitmapMark i) b fun _ c => bools c = (bools b).set i true :=
  wp_updateElem_bools hi fun _ => Bitmap.test_mark hi

theorem wp_bitmapReset :
    wp (bitmapReset i) b fun _ c => bools c = (bools b).set i false :=
  wp_updateElem_bools hi fun _ => Bitmap.test_reset hi

theorem wp_bitmapFlip :
    wp (bitmapFlip i) b fun _ c => bools c = (bools b).modify i not := by
  refine wp_mono (wp_updateElem_bools hi fun _ => Bitmap.test_flip hi) ?_
  intro _ c hc
  rw [hc]
  apply ext_getElem?
  intro j
  rw [List.getElem?_set, List.getElem?_modify, length_bools, bools_getElem?, if_pos hi]
  by_cases hij : i = j
  · subst hij
    simp [hi]
  · simp [hij]

theorem bitmapSet_eq : bitmapSet i value b = .ok ((), b.set i value) := by
  obtain ⟨_, c, h, rfl⟩ : wp (bitmapSet i value) b fun _ c => c = b.set i value := by
    simp only [bitmapSet, wp_bind, wp_get, wp_check]
    refine ⟨hi, ?_⟩
    cases value with
    | true => exact wp_updateElem hi
    | false => exact wp_updateElem hi
  exact h

theorem wp_bitmapSet :
    wp (bitmapSet i value) b fun _ c => bools c = (bools b).set i value := by
  simp only [bitmapSet, wp_bind, wp_get, wp_check]
  refine ⟨hi, ?_⟩
  cases value with
  | true => exact wp_bitmapMark hi
  | false => exact wp_bitmapReset hi

theorem reads_bitmapTest : Reads (bitmapTest i) b (b.test i) := by
  refine Reads.bind (a := b) rfl ?_
  refine (Reads.check hi _).bind ?_
  refine (Reads.check (Bitmap.elem_lt hi) _).bind ?_
  rfl

end

/-! ## Several bits -/

theorem reads_assertRange (h : start + cnt ≤ b.bitCnt) : Reads (assertRange start cnt) b () := by
  refine Reads.bind (a := b) rfl ?_
  refine (Reads.check (by omega) _).bind ?_
  exact Reads.check ((Nat.mod_le _ _).trans h) _

theorem wp_bitmapSetMultiple (h : start + cnt ≤ b.bitCnt) :
    wp (bitmapSetMultiple start cnt value) b fun _ c =>
      bools c = fill (bools b) start cnt value := by
  rw [bitmapSetMultiple, wp_bind]
  refine ⟨(), b, reads_assertRange h, ?_⟩
  -- after `n` rounds the first `n` bits of the range are set
  refine wp_mono (wp_forM_range (I := fun n c => c = b.setMultiple start n value) rfl ?_) ?_
  · intro n hn c hc
    subst hc
    have hin : start + n < (b.setMultiple start n value).bitCnt := by
      rw [Bitmap.setMultiple_bitCnt]
      omega
    exact ⟨(), _, bitmapSet_eq hin, Bitmap.setMultiple_succ.symm⟩
  · rintro _ c rfl
    rw [bools_eq_iff, Bitmap.setMultiple_bitCnt]
    refine ⟨by rw [fill, length_mapIdx, length_bools], ?_⟩
    intro j hj
    rw [fill, List.getElem?_mapIdx, bools_getElem?, if_pos hj, Bitmap.test_setMultiple h]
    rfl

theorem wp_bitmapSetAll : wp (bitmapSetAll value) b fun _ c =>
    bools c = List.replicate b.bitCnt value := by
  simp only [bitmapSetAll, wp_bind, wp_get]
  refine wp_mono (wp_bitmapSetMultiple (by omega)) ?_
  intro _ c hc
  rw [hc]
  apply ext_getElem?
  intro j
  rw [fill, List.getElem?_mapIdx, bools_getElem?, List.getElem?_replicate]
  by_cases hj : j < b.bitCnt
  · simp [hj]
  · simp [hj]

theorem foldl_count (l : List Nat) (f : Nat → Bool) (n : Nat) :
    l.foldl (fun n i => if f i == value then n + 1 else n) n = n + (l.map f).count value := by
  induction l generalizing n with
  | nil => rfl
  | cons a l ih =>
    rw [foldl_cons, ih, map_cons, count_cons]
    split_ifs <;> omega

section

variable (h : start + cnt ≤ b.bitCnt)
include h

theorem reads_bitmapCount :
    Reads (bitmapCount start cnt value) b ((slice (bools b) start cnt).count value) := by
  rw [slice_bools h, ← Nat.zero_add (List.count _ _), ← foldl_count]
  refine (reads_assertRange h).bind (Reads.foldlM ?_)
  intro i hi n
  have hin : start + i < b.bitCnt := by
    have := mem_range.1 hi
    omega
  exact (reads_bitmapTest hin).bind rfl

theorem reads_bitmapContains :
    Reads (bitmapContains start cnt value) b ((slice (bools b) start cnt).contains value) := by
  have hany : (slice (bools b) start cnt).contains value =
      (List.range cnt).any fun i => b.test (start + i) == value := by
    rw [slice_bools h, contains_eq_any_beq, any_map]
    congr 1
    funext i
    exact Bool.beq_comm
  rw [hany]
  refine (reads_assertRange h).bind (Reads.anyM ?_)
  intro i hi
  have hin : start + i < b.bitCnt := by
    have := mem_range.1 hi
    omega
  exact (reads_bitmapTest hin).bind rfl

theorem reads_bitmapAny :
    Reads (bitmapAny start cnt) b ((slice (bools b) start cnt).any id) := by
  have := @reads_bitmapContains b start cnt true h
  rwa [contains_eq_any_beq, show (fun a => true == a) = id from funext Bool.true_beq] at this

theorem reads_bitmapNone :
    Reads (bitmapNone start cnt) b (!(slice (bools b) start cnt).any id) :=
  (reads_bitmapAny h).bind rfl

theorem reads_bitmapAll :
    Reads (bitmapAll start cnt) b ((slice (bools b) start cnt).all id) := by
  have hall : (slice (bools b) start cnt).all id = !(slice (bools b) start cnt).contains false := by
    rw [contains_eq_any_beq, not_any_eq_all_not]
    congr 1
    funext x
    cases x <;> rfl
  rw [hall]
  exact (reads_bitmapContains h).bind rfl

end

/-! ## Searching -/

theorem reads_bitmapScan (hs : start ≤ b.bitCnt) :
    Reads (bitmapScan start cnt value) b (b.scan start cnt value) := by
  refine Reads.bind (a := b) rfl ((Reads.check hs _).bind ?_)
  rw [Bitmap.scan]
  split_ifs with hcnt
  · refine (Reads.findM? ?_).bind rfl
    intro i hi
    have hin : i + cnt ≤ b.bitCnt := by
      have := mem_range'_1.1 hi
      omega
    have hsame : (slice (bools b) i cnt).contains (!value) = b.contains i cnt (!value) := by
      rw [slice_bools hin, contains_eq_any_beq, any_map, Bitmap.contains]
      congr 1
      funext k
      exact Bool.beq_comm
    have hread := @reads_bitmapContains b i cnt (!value) hin
    rw [hsame] at hread
    exact hread.bind rfl
  · rfl

/-- First fit: the least run, or the error value exactly when there is none. -/
theorem scan_isLeast (hb : b.bitCnt < bitmapError) :
    (b.scan start cnt value = bitmapError ↔ ¬ ∃ i, IsRun (bools b) start cnt value i) ∧
      (b.scan start cnt value ≠ bitmapError →
        IsLeast {i | IsRun (bools b) start cnt value i} (b.scan start cnt value)) := by
  have hfound : b.scan start cnt value ≠ bitmapError →
      IsLeast {i | IsRun (bools b) start cnt value i} (b.scan start cnt value) := by
    intro h
    refine ⟨isRun_bools.2 (Bitmap.scan_spec h), ?_⟩
    intro i hi
    obtain ⟨hs, -, hrun⟩ := isRun_bools.1 hi
    by_contra hlt
    exact Bitmap.scan_least h hs (not_le.1 hlt) hrun
  refine ⟨⟨?_, ?_⟩, hfound⟩
  · rintro h ⟨i, hi⟩
    obtain ⟨hs, hle, hrun⟩ := isRun_bools.1 hi
    exact Bitmap.scan_eq_error (by omega) h hs hle hrun
  · intro hno
    by_contra h
    exact hno ⟨_, (hfound h).1⟩

/-- `bitmap_scan_and_flip` finds what `bitmap_scan` finds and changes exactly those bits. -/
theorem wp_bitmapScanAndFlip (hs : start ≤ b.bitCnt) :
    wp (bitmapScanAndFlip start cnt value) b fun r c => r = b.scan start cnt value ∧
      bools c = if r = bitmapError then bools b else fill (bools b) r cnt (!value) := by
  rw [bitmapScanAndFlip, wp_bind]
  refine ⟨_, b, reads_bitmapScan hs, ?_⟩
  dsimp only
  by_cases h : b.scan start cnt value = bitmapError
  · rw [if_neg (not_not.2 h), wp_pure, if_pos h]
    exact ⟨rfl, rfl⟩
  · rw [if_pos h, wp_bind]
    refine wp_mono (wp_bitmapSetMultiple (Bitmap.scan_spec h).2.1) ?_
    intro _ c hc
    rw [wp_pure, if_neg h]
    exact ⟨rfl, hc⟩

/-- The word-and-mask implementation refines an array of `bit_cnt` booleans. -/
theorem bitmap_refines_array (b : Bitmap) (hb : b.bitCnt < bitmapError) :
    (∀ idx < b.bitCnt,
      (∀ value, wp (bitmapSet idx value) b fun _ c => bools c = (bools b).set idx value) ∧
      (wp (bitmapMark idx) b fun _ c => bools c = (bools b).set idx true) ∧
      (wp (bitmapReset idx) b fun _ c => bools c = (bools b).set idx false) ∧
      (wp (bitmapFlip idx) b fun _ c => bools c = (bools b).modify idx not) ∧
      wp (bitmapTest idx) b fun r c => c = b ∧ (bools b)[idx]? = some r) ∧
    (∀ value, wp (bitmapSetAll value) b fun _ c => bools c = List.replicate b.bitCnt value) ∧
    (∀ start cnt, start + cnt ≤ b.bitCnt →
      (∀ value, wp (bitmapSetMultiple start cnt value) b fun _ c =>
        bools c = fill (bools b) start cnt value) ∧
      (∀ value, Reads (bitmapCount start cnt value) b ((slice (bools b) start cnt).count value)) ∧
      (∀ value, Reads (bitmapContains start cnt value) b
        ((slice (bools b) start cnt).contains value)) ∧
      Reads (bitmapAny start cnt) b ((slice (bools b) start cnt).any id) ∧
      Reads (bitmapNone start cnt) b (!(slice (bools b) start cnt).any id) ∧
      Reads (bitmapAll start cnt) b ((slice (bools b) start cnt).all id)) ∧
    ∀ start ≤ b.bitCnt, ∀ cnt value, ∃ r,
      Reads (bitmapScan start cnt value) b r ∧
      (r = bitmapError ↔ ¬ ∃ i, IsRun (bools b) start cnt value i) ∧
      (r ≠ bitmapError → IsLeast {i | IsRun (bools b) start cnt value i} r) ∧
      wp (bitmapScanAndFlip start cnt value) b fun r' c => r' = r ∧
        bools c = if r = bitmapError then bools b else fill (bools b) r cnt (!value) := by
  refine ⟨?_, fun value => wp_bitmapSetAll, ?_, ?_⟩
  · intro idx hidx
    refine ⟨fun value => wp_bitmapSet hidx, wp_bitmapMark hidx, wp_bitmapReset hidx,
      wp_bitmapFlip hidx, b.test idx, b, reads_bitmapTest hidx, rfl, ?_⟩
    rw [bools_getElem?, if_pos hidx]
  · intro start cnt h
    exact ⟨fun value => wp_bitmapSetMultiple h, fun value => reads_bitmapCount h,
      fun value => reads_bitmapContains h, reads_bitmapAny h, reads_bitmapNone h, reads_bitmapAll h⟩
  · intro start hs cnt value
    refine ⟨_, reads_bitmapScan hs, (scan_isLeast hb).1, (scan_isLeast hb).2, ?_⟩
    refine wp_mono (wp_bitmapScanAndFlip hs) ?_
    rintro _ c ⟨rfl, hc⟩
    exact ⟨rfl, hc⟩

/-- Seventy bits in two words, the first of them with the run of set bits over the word boundary. -/
theorem bitmap_refines_array_twoWords :
    let b := (Bitmap.create 70 fun _ => 0).setMultiple 60 8 true
    b.bitCnt < bitmapError ∧ ∃ r, Reads (bitmapScan 3 8 true) b r ∧
      (r ≠ bitmapError → IsLeast {i | IsRun (bools b) 3 8 true i} r) := by
  have hlt : ((Bitmap.create 70 fun _ => 0).setMultiple 60 8 true).bitCnt < bitmapError := by
    decide
  have hs : 3 ≤ ((Bitmap.create 70 fun _ => 0).setMultiple 60 8 true).bitCnt := by
    decide
  obtain ⟨r, hr, -, hleast, -⟩ := (bitmap_refines_array _ hlt).2.2.2 3 hs 8 true
  exact ⟨hlt, r, hr, hleast⟩

end Pintos.LibKernel.BitmapArray
