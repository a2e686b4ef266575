import Pintos.Lib.ByteMemory

/-!
# Bitmaps

`lib/kernel/bitmap.c`: bits in an array of 64-bit words, set and tested through masks. The functions
on several bits loop over single bits. Assertions are left to the callers' models, which check the
range once; inside the range the functions below are those of the source. A bitmap is described by
its `test` function alone: each operation has one lemma about `test`.
-/

set_option autoImplicit false

namespace Pintos.LibKernel

open Lib.ByteMemory List

/-- `ELEM_BITS`. -/
def elemBits : Nat := 64

/-- The index of the element that contains a bit. -/
def elemIdx (bitIdx : Nat) : Nat := bitIdx / elemBits

/-- The element in which only the given bit is on. -/
def bitMask (bitIdx : Nat) : BitVec 64 := 1#64 <<< (bitIdx % elemBits)

/-- The number of elements for `bitCnt` bits. -/
def elemCnt (bitCnt : Nat) : Nat := (bitCnt + elemBits - 1) / elemBits

/-- The number of bytes for `bitCnt` bits. -/
def byteCnt (bitCnt : Nat) : Nat := 8 * elemCnt bitCnt

/-- `struct bitmap`. -/
structure Bitmap where
  bitCnt : Nat
  bits : List (BitVec 64)
  size : bits.length = elemCnt bitCnt

/-- `BITMAP_ERROR`, that is `SIZE_MAX`, which `stdint.h` defines as `UINT32_MAX`. -/
def bitmapError : Nat := 2 ^ 32 - 1

namespace Bitmap

/-- Change one element. -/
def modify (b : Bitmap) (idx : Nat) (f : BitVec 64 → BitVec 64) : Bitmap where
  bitCnt := b.bitCnt
  bits := b.bits.modify idx f
  size := by rw [length_modify, b.size]

/-- `bitmap_mark`. -/
def mark (b : Bitmap) (bitIdx : Nat) : Bitmap :=
  b.modify (elemIdx bitIdx) (· ||| bitMask bitIdx)

/-- `bitmap_reset`. -/
def reset (b : Bitmap) (bitIdx : Nat) : Bitmap :=
  b.modify (elemIdx bitIdx) (· &&& ~~~ bitMask bitIdx)

/-- `bitmap_flip`. -/
def flip (b : Bitmap) (bitIdx : Nat) : Bitmap :=
  b.modify (elemIdx bitIdx) (· ^^^ bitMask bitIdx)

/-- `bitmap_set`. -/
def set (b : Bitmap) (idx : Nat) (value : Bool) : Bitmap :=
  if value then b.mark idx else b.reset idx

/-- `bitmap_test`. -/
def test (b : Bitmap) (idx : Nat) : Bool := (b.bits.getD (elemIdx idx) 0 &&& bitMask idx) ≠ 0

/-- `bitmap_set_multiple`. -/
def setMultiple (b : Bitmap) (start cnt : Nat) (value : Bool) : Bitmap :=
  (List.range cnt).foldl (fun b i => b.set (start + i) value) b

/-- `bitmap_set_all`. -/
def setAll (b : Bitmap) (value : Bool) : Bitmap := b.setMultiple 0 b.bitCnt value

/-- `bitmap_contains`. -/
def contains (b : Bitmap) (start cnt : Nat) (value : Bool) : Bool :=
  (List.range cnt).any fun i => b.test (start + i) == value

/-- `bitmap_all`. -/
def all (b : Bitmap) (start cnt : Nat) : Bool := !b.contains start cnt false

/-- `bitmap_scan`. -/
def scan (b : Bitmap) (start cnt : Nat) (value : Bool) : Nat :=
  if cnt ≤ b.bitCnt then
    ((List.range' start (b.bitCnt - cnt + 1 - start)).find? fun i =>
      !b.contains i cnt (!value)).getD bitmapError
  else bitmapError

/-- `bitmap_scan_and_flip`. -/
def scanAndFlip (b : Bitmap) (start cnt : Nat) (value : Bool) : Nat × Bitmap :=
  let idx := b.scan start cnt value
  (idx, if idx ≠ bitmapError then b.setMultiple idx cnt (!value) else b)

/-- `bitmap_create`: the elements come from `malloc` with some content, then every bit is reset. -/
def create (bitCnt : Nat) (junk : Nat → BitVec 64) : Bitmap :=
  setAll ⟨bitCnt, (List.range (elemCnt bitCnt)).map junk, by simp⟩ false

/-- Byte `k` of the array of elements. -/
def byte (b : Bitmap) (k : Nat) : UInt8 := byteLE (b.bits.getD (k / 8) 0).toNat (k % 8)

/-- `last_mask`: the bits of the last element that are used. -/
def lastMask (b : Bitmap) : BitVec 64 :=
  if b.bitCnt % elemBits ≠ 0 then (1#64 <<< (b.bitCnt % elemBits)) - 1 else -1

/-- The part of `bitmap_read` after the read: the elements are the bytes, and the unused bits of the
last one are cleared. -/
def ofBytes (b : Bitmap) (f : Nat → UInt8) : Bitmap :=
  modify ⟨b.bitCnt, (List.range (elemCnt b.bitCnt)).map fun j =>
    BitVec.ofNat 64 (readLE f 8 (8 * j)), by simp⟩ (elemCnt b.bitCnt - 1) (· &&& b.lastMask)

/-! ## Single bits -/

variable {b : Bitmap} {i j start cnt : Nat} {value : Bool}

theorem bitMask_eq (i : Nat) : bitMask i = BitVec.twoPow 64 (i % 64) :=
  (BitVec.twoPow_eq 64 (i % 64)).symm

/-- A test reads one bit of one element. -/
theorem test_eq (b : Bitmap) (i : Nat) :
    b.test i = (b.bits.getD (i / 64) 0).getLsbD (i % 64) := by
  have hi : i % 64 < 64 := Nat.mod_lt _ (by norm_num)
  have hpow : BitVec.twoPow 64 (i % 64) ≠ 0#64 := by
    intro h
    have hbit := congrArg (fun w => BitVec.getLsbD w (i % 64)) h
    simp [hi] at hbit
  rw [test, bitMask_eq, elemIdx, elemBits, BitVec.and_twoPow]
  cases (b.bits.getD (i / 64) 0).getLsbD (i % 64) with
  | true => simpa using hpow
  | false => simp

theorem elem_lt (hi : i < b.bitCnt) : i / 64 < b.bits.length := by
  rw [b.size, elemCnt, elemBits]
  omega

/-- Changing the element of bit `i` by a function on its bits. -/
theorem test_modify {f : BitVec 64 → BitVec 64} (hi : i < b.bitCnt) :
    (b.modify (elemIdx i) f).test j =
      if j / 64 = i / 64 then (f (b.bits.getD (i / 64) 0)).getLsbD (j % 64) else b.test j := by
  have hlt := elem_lt hi
  have hidx : elemIdx i = i / 64 := rfl
  rw [test_eq, test_eq, modify, hidx, getD_eq_getElem?_getD, List.getElem?_modify]
  by_cases hj : j / 64 = i / 64
  · rw [if_pos hj, hj, getD_eq_getElem?_getD, List.getElem?_eq_getElem hlt]
    simp
  · have hij : ¬ i / 64 = j / 64 := fun e => hj e.symm
    rw [if_neg hj, getD_eq_getElem?_getD]
    simp [hij]

/-- Changing bit `i` alone. -/
theorem test_modify_bit {f : BitVec 64 → BitVec 64} {g : Bool → Bool} (hi : i < b.bitCnt)
    (hf : ∀ w k, k < 64 →
      (f w).getLsbD k = if i % 64 = k then g (w.getLsbD k) else w.getLsbD k) :
    (b.modify (elemIdx i) f).test j = if j = i then g (b.test i) else b.test j := by
  rw [test_modify hi, hf _ _ (Nat.mod_lt _ (by norm_num)), test_eq b i, test_eq b j]
  by_cases hji : j = i
  · simp [hji]
  · by_cases hw : j / 64 = i / 64
    · rw [if_pos hw, if_neg (by omega), if_neg hji, hw]
    · rw [if_neg hw, if_neg hji]

theorem test_mark (hi : i < b.bitCnt) : (b.mark i).test j = if j = i then true else b.test j :=
  test_modify_bit (g := fun _ => true) hi fun w k hk => by
    simp only [bitMask_eq, BitVec.getLsbD_or, BitVec.getLsbD_twoPow]
    grind

@[simp] theorem mark_bitCnt : (b.mark i).bitCnt = b.bitCnt := rfl

/-- A mark clears no bit, even where it lies outside the bitmap. -/
theorem test_mark_of_test (h : b.test j = true) : (b.mark i).test j = true := by
  rw [test_eq] at h ⊢
  rw [getD_eq_getElem?_getD] at h ⊢
  rw [mark, modify, List.getElem?_modify]
  cases hw : b.bits[j / 64]? with
  | none => simp [hw] at h
  | some w =>
    rw [hw, Option.getD_some] at h
    by_cases hidx : elemIdx i = j / 64
    · simp [hidx, BitVec.getLsbD_or, h]
    · simpa [hidx] using h

theorem test_reset (hi : i < b.bitCnt) :
    (b.reset i).test j = if j = i then false else b.test j :=
  test_modify_bit (g := fun _ => false) hi fun w k hk => by
    simp only [bitMask_eq, BitVec.getLsbD_and, BitVec.getLsbD_not, BitVec.getLsbD_twoPow]
    grind

theorem test_flip (hi : i < b.bitCnt) :
    (b.flip i).test j = if j = i then !b.test i else b.test j :=
  test_modify_bit (g := not) hi fun w k hk => by
    simp only [bitMask_eq, BitVec.getLsbD_xor, BitVec.getLsbD_twoPow]
    grind

@[simp] theorem set_bitCnt : (b.set i value).bitCnt = b.bitCnt := by
  cases value <;> rfl

theorem test_set (hi : i < b.bitCnt) :
    (b.set i value).test j = if j = i then value else b.test j := by
  cases value with
  | true => exact test_mark hi
  | false => exact test_reset hi

/-! ## Several bits -/

theorem setMultiple_succ :
    b.setMultiple start (cnt + 1) value =
      (b.setMultiple start cnt value).set (start + cnt) value := by
  rw [setMultiple, setMultiple, range_succ, foldl_append]
  rfl

@[simp] theorem setMultiple_bitCnt : (b.setMultiple start cnt value).bitCnt = b.bitCnt := by
  induction cnt with
  | zero => rfl
  | succ cnt ih => rw [setMultiple_succ, set_bitCnt, ih]

theorem test_setMultiple (h : start + cnt ≤ b.bitCnt) :
    (b.setMultiple start cnt value).test j =
      if start ≤ j ∧ j < start + cnt then value else b.test j := by
  induction cnt with
  | zero =>
    rw [if_neg (by omega)]
    rfl
  | succ cnt ih =>
    have hin : start + cnt < (b.setMultiple start cnt value).bitCnt := by
      rw [setMultiple_bitCnt]
      omega
    rw [setMultiple_succ, test_set hin, ih (by omega)]
    by_cases hj : j = start + cnt
    · rw [if_pos hj, if_pos (by omega)]
    · rw [if_neg hj]
      by_cases hr : start ≤ j ∧ j < start + cnt
      · rw [if_pos hr, if_pos (by omega)]
      · rw [if_neg hr, if_neg (by omega)]

theorem test_setMultiple_one (h : i < b.bitCnt) :
    (b.setMultiple i 1 value).test j = if j = i then value else b.test j := by
  have hone : i ≤ j ∧ j < i + 1 ↔ j = i := by omega
  rw [test_setMultiple h]
  simp only [hone]

/-- `bitmap_contains` is false exactly when all the bits have the other value. -/
theorem contains_eq_false :
    b.contains start cnt value = false ↔ ∀ k, start ≤ k → k < start + cnt → b.test k = !value := by
  rw [contains, any_eq_false]
  constructor
  · intro h k h1 h2
    have hk := h (k - start) (mem_range.2 (by omega))
    cases hv : b.test k <;> cases value <;> simp_all
  · intro h k hk
    rw [mem_range] at hk
    rw [h (start + k) (by omega) (by omega)]
    cases value <;> simp

theorem all_eq_true :
    b.all start cnt = true ↔ ∀ k, start ≤ k → k < start + cnt → b.test k = true := by
  rw [all, Bool.not_eq_true', contains_eq_false]
  rfl

/-- Where `bitmap_scan` does not fail, its search finds. -/
theorem scan_find (h : b.scan start cnt value ≠ bitmapError) : cnt ≤ b.bitCnt ∧
    (List.range' start (b.bitCnt - cnt + 1 - start)).find? (fun i => !b.contains i cnt (!value)) =
      some (b.scan start cnt value) := by
  unfold scan at h ⊢
  split at h
  · rename_i hcnt
    rw [if_pos hcnt]
    cases hf : (List.range' start (b.bitCnt - cnt + 1 - start)).find? fun i =>
        !b.contains i cnt (!value) with
    | none =>
      rw [hf] at h
      exact absurd rfl h
    | some i => exact ⟨hcnt, rfl⟩
  · exact absurd rfl h

/-- What `bitmap_scan` returns when it does not fail. -/
theorem scan_spec (h : b.scan start cnt value ≠ bitmapError) :
    start ≤ b.scan start cnt value ∧ b.scan start cnt value + cnt ≤ b.bitCnt ∧
      ∀ k, b.scan start cnt value ≤ k → k < b.scan start cnt value + cnt → b.test k = value := by
  obtain ⟨hcnt, hf⟩ := scan_find h
  have hmem := mem_range'_1.1 (mem_of_find?_eq_some hf)
  have hprop := List.find?_some hf
  rw [Bool.not_eq_true', contains_eq_false, Bool.not_not] at hprop
  exact ⟨hmem.1, by omega, hprop⟩

/-- What `bitmap_scan` returns fits a `disk_sector_t`. -/
theorem scan_lt (hb : b.bitCnt ≤ bitmapError) : b.scan start cnt value < 2 ^ 32 := by
  by_cases h : b.scan start cnt value = bitmapError
  · rw [h]
    decide
  · have hle := (scan_spec h).2.1
    simp only [bitmapError] at hb
    omega

/-- Where `bitmap_scan` fails there is no run of `cnt` such bits. -/
theorem scan_eq_error (hb : b.bitCnt < bitmapError + cnt) (h : b.scan start cnt value = bitmapError)
    {i : Nat} (hi : start ≤ i) (hle : i + cnt ≤ b.bitCnt) :
    ¬ ∀ k, i ≤ k → k < i + cnt → b.test k = value := by
  intro hall
  rw [scan, if_pos (by omega)] at h
  cases hf : (List.range' start (b.bitCnt - cnt + 1 - start)).find? fun i =>
      !b.contains i cnt (!value) with
  | none =>
    have hno := List.find?_eq_none.1 hf i (mem_range'_1.2 (by omega))
    simp only [Bool.not_eq_true', Bool.not_eq_false] at hno
    have hfalse := (@contains_eq_false b i cnt (!value)).2 (by simpa using hall)
    rw [hno] at hfalse
    cases hfalse
  | some j =>
    have hmem := mem_of_find?_eq_some hf
    rw [mem_range'_1] at hmem
    rw [hf, Option.getD_some] at h
    omega

/-- No run of `cnt` such bits starts before the one that `bitmap_scan` returns. -/
theorem scan_least (h : b.scan start cnt value ≠ bitmapError) (hi : start ≤ i)
    (hlt : i < b.scan start cnt value) : ¬ ∀ k, i ≤ k → k < i + cnt → b.test k = value := by
  intro hall
  have hno := (List.find?_range'_eq_some.1 (scan_find h).2).2.2 i hi hlt
  have hfalse := (@contains_eq_false b i cnt (!value)).2 (by simpa using hall)
  rw [hfalse] at hno
  cases hno

/-! ## Bytes -/

@[simp] theorem create_bitCnt (n : Nat) (junk : Nat → BitVec 64) : (create n junk).bitCnt = n :=
  setMultiple_bitCnt

/-- The bytes of an element make the element. -/
theorem elem_of_bytes {f : Nat → UInt8} {n : Nat}
    (hf : ∀ i < 8, f (8 * n + i) = b.byte (8 * n + i)) :
    BitVec.ofNat 64 (readLE f 8 (8 * n)) = b.bits.getD n 0 := by
  have hbyte : ∀ i < 8, f (8 * n + i) = byteLE (b.bits.getD n 0).toNat i := by
    intro i hi
    have hdiv : (8 * n + i) / 8 = n := by omega
    have hmod : (8 * n + i) % 8 = i := by omega
    rw [hf i hi, byte, hdiv, hmod]
  have hlt : (b.bits.getD n 0).toNat < 2 ^ 64 := (b.bits.getD n 0).isLt
  apply BitVec.eq_of_toNat_eq
  rw [readLE_of_byteLE hbyte, BitVec.toNat_ofNat]
  omega

theorem lastMask_getLsbD (hi : i < b.bitCnt) (hlast : i / 64 = elemCnt b.bitCnt - 1) :
    b.lastMask.getLsbD (i % 64) = true := by
  have hcnt : elemCnt b.bitCnt = (b.bitCnt + 63) / 64 := rfl
  have hi64 : i % 64 < 64 := Nat.mod_lt _ (by norm_num)
  unfold lastMask
  by_cases h0 : b.bitCnt % elemBits ≠ 0
  · have hk : b.bitCnt % 64 < 64 := Nat.mod_lt _ (by norm_num)
    have hsmall : i % 64 < b.bitCnt % 64 := by
      simp only [elemBits] at h0
      omega
    have hpow : 2 ^ (b.bitCnt % 64) < 2 ^ 64 := Nat.pow_lt_pow_right (by norm_num) hk
    have hone : 1 ≤ 2 ^ (b.bitCnt % 64) := Nat.one_le_two_pow
    have hsub : ((BitVec.twoPow 64 (b.bitCnt % 64)) - 1).toNat = 2 ^ (b.bitCnt % 64) - 1 := by
      have h1 : BitVec.toNat (1 : BitVec 64) = 1 := rfl
      rw [BitVec.toNat_sub, BitVec.toNat_twoPow, Nat.mod_eq_of_lt hpow, h1]
      omega
    rw [if_pos h0, elemBits, ← BitVec.twoPow_eq, BitVec.getLsbD, hsub, Nat.testBit_two_pow_sub_one]
    simpa using hsmall
  · rw [if_neg h0]
    have hneg : (-1 : BitVec 64) = BitVec.allOnes 64 := by decide
    rw [hneg, BitVec.getLsbD_allOnes]
    simpa using hi64

theorem ofBytes_congr {f g : Nat → UInt8} (h : ∀ k < byteCnt b.bitCnt, f k = g k) :
    b.ofBytes f = b.ofBytes g := by
  have helems :
    ((List.range (elemCnt b.bitCnt)).map fun j => BitVec.ofNat 64 (readLE f 8 (8 * j))) =
      (List.range (elemCnt b.bitCnt)).map fun j => BitVec.ofNat 64 (readLE g 8 (8 * j)) := by
    apply map_congr_left
    intro j hj
    have hj' := mem_range.1 hj
    congr 1
    apply readLE_congr
    intro i hi
    apply h
    simp only [byteCnt]
    omega
  simp only [ofBytes, helems]

/-- What is read depends on the bitmap by its size only. -/
theorem ofBytes_eq {b' : Bitmap} (h : b.bitCnt = b'.bitCnt) (f : Nat → UInt8) :
    b.ofBytes f = b'.ofBytes f := by
  obtain ⟨n, bits, hb⟩ := b
  obtain ⟨n', bits', hb'⟩ := b'
  obtain rfl : n = n' := h
  rfl

/-- Reading back the bytes of a bitmap gives the same bits. -/
theorem test_ofBytes {f : Nat → UInt8} (hf : ∀ k < byteCnt b.bitCnt, f k = b.byte k)
    (hi : i < b.bitCnt) : (b.ofBytes f).test i = b.test i := by
  have hcnt : elemCnt b.bitCnt = (b.bitCnt + 63) / 64 := rfl
  have hidx : elemCnt b.bitCnt - 1 = elemIdx (b.bitCnt - 1) := by
    rw [hcnt, elemIdx, elemBits]
    omega
  have helem : ∀ n < elemCnt b.bitCnt, ((List.range (elemCnt b.bitCnt)).map fun j =>
      BitVec.ofNat 64 (readLE f 8 (8 * j))).getD n 0 = b.bits.getD n 0 := by
    intro n hn
    rw [getD_eq_getElem?_getD, List.getElem?_map, List.getElem?_range hn]
    exact elem_of_bytes fun k hk => hf _ (by simp only [byteCnt]; omega)
  rw [ofBytes, hidx, test_modify (by show b.bitCnt - 1 < b.bitCnt; omega), test_eq, test_eq]
  by_cases hlast : i / 64 = (b.bitCnt - 1) / 64
  · have hmask := lastMask_getLsbD hi (by rw [hidx, elemIdx, elemBits]; exact hlast)
    rw [if_pos hlast, ← hlast, BitVec.getLsbD_and, hmask, Bool.and_true]
    exact congrArg (fun w => BitVec.getLsbD w (i % 64)) (helem _ (by omega))
  · rw [if_neg hlast]
    exact congrArg (fun w => BitVec.getLsbD w (i % 64)) (helem _ (by omega))

/-- A bitmap is its bits. -/
theorem eq_of_test {c : Bitmap} (hcnt : c.bitCnt = b.bitCnt)
    (h : ∀ i, c.test i = b.test i) : c = b := by
  obtain ⟨m, cs, hc⟩ := c
  obtain ⟨n, bs, hb⟩ := b
  obtain rfl : m = n := hcnt
  suffices hbits : cs = bs by
    subst hbits
    rfl
  refine ext_getElem (hc.trans hb.symm) ?_
  intro k hk hk'
  apply BitVec.eq_of_getLsbD_eq
  intro j hj
  have hbit := h (64 * k + j)
  have hdiv : (64 * k + j) / 64 = k := by omega
  have hmod : (64 * k + j) % 64 = j := by omega
  rw [test_eq, test_eq, hdiv, hmod] at hbit
  simp only [getD_eq_getElem?_getD, List.getElem?_eq_getElem hk, List.getElem?_eq_getElem hk',
    Option.getD_some] at hbit
  exact hbit

end Bitmap

end Pintos.LibKernel
