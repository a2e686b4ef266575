import Pintos.Lib.MappedMemory

/-!
# Copies and bounded strings

`memcpy`, `memmove`, `strlen`, `strlcpy` and `strlcat` of `lib/string.c`, on a memory in which every
access outside of the mapped addresses is a fault. Pointers are addresses, with `0` for `NULL`.

`memmove_contract_iff` is the contract of `memmove` for all positions of the two ranges: the copy is
right in each of them, and the pointer that is returned is `dst` unless the copy went upwards.
`strlcpy_strlcat` is about the two calls that build a string in a buffer.
-/

set_option autoImplicit false

namespace Pintos.LibC.Strings

open Lib.ByteMemory Lib.StateExcept Lib.MappedMemory List

/-! ## The functions -/

/-- `*dst++ = *src++`, `n` times; the last value of `dst`. -/
def copyUp : Nat → Nat → Nat → MemoryM Nat
  | 0, dst, _ => return dst
  | n + 1, dst, src => do
    store dst (← load src)
    copyUp n (dst + 1) (src + 1)

/-- `*--dst = *--src`, `n` times; the last value of `dst`. -/
def copyDown : Nat → Nat → Nat → MemoryM Nat
  | 0, dst, _ => return dst
  | n + 1, dst, src => do
    store (dst - 1) (← load (src - 1))
    copyDown n (dst - 1) (src - 1)

/-- `memcpy`. -/
def memcpy (dst src size : Nat) : MemoryM Nat := do
  check (dst ≠ 0 ∨ size = 0) .assertion
  check (src ≠ 0 ∨ size = 0) .assertion
  let _ ← copyUp size dst src
  return dst

/-- `memmove`. -/
def memmove (dst src size : Nat) : MemoryM Nat := do
  check (dst ≠ 0 ∨ size = 0) .assertion
  check (src ≠ 0 ∨ size = 0) .assertion
  if dst < src then copyUp size dst src else copyDown size (dst + size) (src + size)

/-- The loop of `strlen`: the address of the next zero. -/
def findEnd : Nat → Nat → MemoryM Nat
  | 0, _ => throw .endless
  | fuel + 1, p => do
    if (← load p) = 0 then return p else findEnd fuel (p + 1)

/-- `strlen`. -/
def strlen (string : Nat) : MemoryM Nat := do
  check (string ≠ 0) .assertion
  let p ← findEnd (2 ^ 64) string
  return p - string

/-- `strlcpy`. -/
def strlcpy (dst src size : Nat) : MemoryM Nat := do
  check (dst ≠ 0) .assertion
  check (src ≠ 0) .assertion
  let srcLen ← strlen src
  if 0 < size then
    let dstLen := if srcLen < size - 1 then srcLen else size - 1
    let _ ← memcpy dst src dstLen
    store (dst + dstLen) 0
    return srcLen
  else return srcLen

/-- `strlcat`. -/
def strlcat (dst src size : Nat) : MemoryM Nat := do
  check (dst ≠ 0) .assertion
  check (src ≠ 0) .assertion
  let srcLen ← strlen src
  let dstLen ← strlen dst
  if 0 < size ∧ dstLen < size then
    let copyCnt := if srcLen < size - dstLen - 1 then srcLen else size - dstLen - 1
    let _ ← memcpy (dst + dstLen) src copyCnt
    store (dst + dstLen + copyCnt) 0
    return (srcLen + dstLen) % 2 ^ 64
  else return (srcLen + dstLen) % 2 ^ 64

/-! ## Copies -/

/-- The memory after a copy. -/
def copied (M : Memory) (dst src n : Nat) : Memory := { M with bytes := copy M.bytes dst src n }

section Copies

variable {M : Memory} {dst src n : Nat}

@[simp] theorem copied_mapped (M : Memory) (dst src n : Nat) :
    (copied M dst src n).mapped = M.mapped :=
  rfl

theorem copied_inside {i : Nat} (hi : i < n) :
    (copied M dst src n).bytes (dst + i) = M.bytes (src + i) := by
  change copy M.bytes dst src n (dst + i) = _
  rw [copy, patch_inside (by omega) (by omega), Nat.add_sub_cancel_left]

theorem copied_outside {x : Nat} (hx : x < dst ∨ dst + n ≤ x) :
    (copied M dst src n).bytes x = M.bytes x := by
  change copy M.bytes dst src n x = _
  rw [copy, patch_outside hx]

theorem copied_zero (M : Memory) (dst src : Nat) : copied M dst src 0 = M := by
  rw [copied, copy, patch_zero]

/-- The first byte and then the others: the bytes that are still to be read have not been
overwritten when the destination starts before the source or behind its end. -/
theorem copied_up (h : dst ≤ src ∨ src + (n + 1) ≤ dst) :
    copied (M.put dst (M.bytes src)) (dst + 1) (src + 1) n = copied M dst src (n + 1) := by
  have hread : ∀ i < n, (M.put dst (M.bytes src)).bytes (src + 1 + i) =
      M.bytes (src + (1 + i)) := by
    intro i hi
    rw [put_bytes_of_ne (by omega), add_assoc]
  have hbytes : copy (M.put dst (M.bytes src)).bytes (dst + 1) (src + 1) n =
      copy M.bytes dst src (n + 1) := by
    rw [copy, patch_congr hread, put_bytes, copy, add_comm n 1,
      ← patch_append M.bytes dst 1 n fun i => M.bytes (src + i)]
    refine congrArg (fun m => patch m (dst + 1) n fun i => M.bytes (src + (1 + i))) ?_
    refine patch_congr fun i hi => ?_
    rw [Nat.lt_one_iff.1 hi, add_zero]
  rw [copied, copied, hbytes]
  rfl

/-- The last byte and then the others: they have not been overwritten when the destination does not
start before the source. -/
theorem copied_down (h : src ≤ dst) :
    copied (M.put (dst + n) (M.bytes (src + n))) dst src n = copied M dst src (n + 1) := by
  have hbytes : copy (M.put (dst + n) (M.bytes (src + n))).bytes dst src n =
      copy M.bytes dst src (n + 1) := by
    funext x
    by_cases hx : dst ≤ x ∧ x < dst + n
    · rw [copy, patch_inside hx.1 hx.2, put_bytes_of_ne (by omega), copy,
        patch_inside hx.1 (by omega)]
    · by_cases hlast : x = dst + n
      · rw [copy, patch_outside (by omega), hlast, put_bytes_self, copy,
          patch_inside (by omega) (by omega), Nat.add_sub_cancel_left]
      · rw [copy, patch_outside (by omega), put_bytes_of_ne hlast, copy, patch_outside (by omega)]
  rw [copied, copied, hbytes]
  rfl

section

variable (hdst : Mapped M dst n) (hsrc : Mapped M src n)
include hdst hsrc

theorem wp_copyUp (h : dst ≤ src ∨ src + n ≤ dst) :
    wp (copyUp n dst src) M fun p M' => p = dst + n ∧ M' = copied M dst src n := by
  induction n generalizing M dst src with
  | zero =>
    rw [copyUp, wp_pure, copied_zero]
    exact ⟨rfl, rfl⟩
  | succ n ih =>
    rw [copyUp, wp_bind]
    refine wp_load hsrc.head ?_
    rw [wp_bind]
    refine wp_store hdst.head ?_
    refine wp_mono (ih hdst.tail hsrc.tail (by omega)) ?_
    rintro p M' ⟨rfl, rfl⟩
    exact ⟨by omega, copied_up h⟩

theorem wp_copyDown (h : src ≤ dst) :
    wp (copyDown n (dst + n) (src + n)) M fun p M' => p = dst ∧ M' = copied M dst src n := by
  induction n generalizing M with
  | zero =>
    rw [copyDown, wp_pure, copied_zero]
    exact ⟨rfl, rfl⟩
  | succ n ih =>
    rw [copyDown, wp_bind]
    refine wp_load (hsrc n (Nat.lt_succ_self n)) ?_
    rw [wp_bind]
    refine wp_store (hdst n (Nat.lt_succ_self n)) ?_
    refine wp_mono (ih (fun i hi => hdst i (by omega)) fun i hi => hsrc i (by omega)) ?_
    rintro p M' ⟨rfl, rfl⟩
    exact ⟨rfl, copied_down h⟩

theorem wp_memcpy (h : dst ≤ src ∨ src + n ≤ dst) :
    wp (memcpy dst src n) M fun p M' => p = dst ∧ M' = copied M dst src n := by
  simp only [memcpy, wp_bind, wp_check]
  refine ⟨hdst.ne_null, hsrc.ne_null, wp_mono (wp_copyUp hdst hsrc h) ?_⟩
  rintro p M' ⟨-, hM⟩
  exact (wp_pure dst M' _).2 ⟨rfl, hM⟩

theorem wp_memmove :
    wp (memmove dst src n) M fun p M' =>
      p = (if dst < src then dst + n else dst) ∧ M' = copied M dst src n := by
  simp only [memmove, wp_bind, wp_check]
  refine ⟨hdst.ne_null, hsrc.ne_null, ?_⟩
  by_cases hlt : dst < src
  · rw [if_pos hlt, if_pos hlt]
    exact wp_copyUp hdst hsrc (Or.inl hlt.le)
  · rw [if_neg hlt, if_neg hlt]
    exact wp_copyDown hdst hsrc (not_lt.1 hlt)

end

end Copies

/-- For all mapped ranges, overlapping or not, `memmove` makes the bytes at `dst` the former bytes
at `src` and changes no other, as `memcpy` does for ranges that do not overlap. It returns `dst`, as
`memcpy` does, exactly when it has not copied upwards. -/
theorem memmove_contract_iff (M : Memory) (dst src size : Nat) (hdst : Mapped M dst size)
    (hsrc : Mapped M src size) :
    ∃ p M', memmove dst src size M = .ok (p, M') ∧
      (∀ i < size, M'.bytes (dst + i) = M.bytes (src + i)) ∧
      (∀ x, x < dst ∨ dst + size ≤ x → M'.bytes x = M.bytes x) ∧
      (dst + size ≤ src ∨ src + size ≤ dst → memcpy dst src size M = .ok (dst, M')) ∧
      (p = dst ↔ src ≤ dst ∨ size = 0) := by
  obtain ⟨p, M', hrun, hp, rfl⟩ := wp_memmove hdst hsrc
  refine ⟨p, _, hrun, fun i hi => copied_inside hi, fun x hx => copied_outside hx, ?_, ?_⟩
  · intro hapart
    obtain ⟨q, M'', hcpy, rfl, rfl⟩ := wp_memcpy hdst hsrc (by omega)
    exact hcpy
  · rw [hp]
    split_ifs <;> omega

/-- The bytes from 1 to 15, with no others mapped. -/
def sixteen : Memory where
  bytes := fun a => UInt8.ofNat a
  mapped := fun a => decide (0 < a ∧ a < 16)
  null := rfl
  bounded := fun a ha => by
    have := of_decide_eq_true ha
    omega

/-- Four bytes are moved up by one. -/
theorem memmove_contract_iff_moveUp :
    ∃ M', memmove 3 2 4 sixteen = .ok (3, M') ∧ M'.bytes 6 = 5 := by
  have hmapped : ∀ a ≤ 4, 0 < a → Mapped sixteen a 4 := fun a ha hpos i hi => by
    simp only [sixteen, decide_eq_true_eq]
    omega
  obtain ⟨p, M', hrun, hbytes, -, -, hiff⟩ := memmove_contract_iff sixteen 3 2 4
    (hmapped 3 (by decide) (by decide)) (hmapped 2 (by decide) (by decide))
  exact ⟨M', (hiff.2 (by decide)) ▸ hrun, hbytes 3 (by decide)⟩

/-- Four bytes are moved down by one: they are right, and the pointer is behind them. -/
theorem memmove_returns_end :
    (memmove 2 3 4 sixteen).toOption.map (fun r => (r.1, r.2.bytes 2, r.2.bytes 5)) =
      some (6, 3, 6) := by
  decide +kernel

/-! ## Bounded strings -/

section Bounded

variable {M : Memory} {a dst src size : Nat} {t u : List UInt8}

theorem wp_findEnd {fuel : Nat} (h : Text M a t) (hfuel : t.length < fuel) :
    wp (findEnd fuel a) M fun p M' => p = a + t.length ∧ M' = M := by
  induction fuel generalizing a t with
  | zero => omega
  | succ fuel ih =>
    rw [findEnd, wp_bind]
    refine wp_load h.mapped_head ?_
    cases t with
    | nil =>
      rw [if_pos h.byte_nil, wp_pure]
      exact ⟨rfl, rfl⟩
    | cons c t =>
      have hc : M.bytes a ≠ 0 := by
        rw [h.byte_cons]
        exact h.nonzero c mem_cons_self
      rw [if_neg hc]
      refine wp_mono (ih h.tail (by rw [length_cons] at hfuel; omega)) ?_
      rintro p M' ⟨rfl, hM⟩
      exact ⟨by rw [length_cons]; omega, hM⟩

/-- `strlen` gives the length. -/
theorem wp_strlen (h : Text M a t) : wp (strlen a) M fun n M' => n = t.length ∧ M' = M := by
  have hbound := M.bounded _ (h.mapped t.length (Nat.lt_succ_self _))
  simp only [strlen, wp_bind, wp_check]
  refine ⟨h.ne_null, wp_mono (wp_findEnd h (by omega)) ?_⟩
  rintro p M' ⟨rfl, hM⟩
  exact (wp_pure _ M' _).2 ⟨by omega, hM⟩

/-- Characters that are copied behind the characters of `u`, with a zero behind them. -/
theorem text_append (hu : Holds M.bytes dst u) (hu0 : ∀ c ∈ u, c ≠ 0) (ht : Text M src t) {n : Nat}
    (hn : n ≤ t.length) (hdst : Mapped M dst (u.length + n + 1)) :
    Text ((copied M (dst + u.length) src n).put (dst + u.length + n) 0) dst (u ++ t.take n) := by
  have hlen : (t.take n).length = n := length_take_of_le hn
  refine ⟨?_, ?_, ?_⟩
  · rw [length_append, hlen]
    exact hdst
  · rw [append_assoc, holds_append]
    refine ⟨hu.congr fun j hj => ?_, ?_⟩
    · rw [put_bytes_of_ne (by omega), copied_outside (by omega)]
    · rw [holds_append, hlen]
      refine ⟨holds_iff.2 fun j hj => ?_, put_bytes_self .., trivial⟩
      rw [hlen] at hj
      have hbyte := holds_iff.1 (holds_append.1 ht.bytes).1 j (by omega)
      rw [put_bytes_of_ne (by omega), copied_inside hj, hbyte, getD_eq_getElem?_getD,
        getD_eq_getElem?_getD, List.getElem?_take_of_lt hj]
  · intro c hc
    rcases mem_append.1 hc with hc | hc
    · exact hu0 c hc
    · exact ht.nonzero c (mem_of_mem_take hc)

/-- The end of `strlcpy` and `strlcat`: characters are copied and a zero is put behind them. -/
theorem wp_appendCopy (hu : Holds M.bytes dst u) (hu0 : ∀ c ∈ u, c ≠ 0)
    (ht : Text M src t) {n r : Nat}
    (hn : n ≤ t.length) (hdst : Mapped M dst size) (hsize : u.length + n < size)
    (hapart : src + t.length < dst ∨ dst + size ≤ src) :
    wp (do
      let _ ← memcpy (dst + u.length) src n
      store (dst + u.length + n) 0
      return r) M fun r' M' => r' = r ∧ M'.mapped = M.mapped ∧ Text M' dst (u ++ t.take n) ∧
        ∀ x, x < dst ∨ dst + size ≤ x → M'.bytes x = M.bytes x := by
  have hroom : Mapped M (dst + u.length) n := fun i hi => by
    rw [add_assoc]
    exact hdst _ (by omega)
  rw [wp_bind]
  refine wp_mono (wp_memcpy hroom (fun i hi => ht.mapped i (by omega)) (by omega)) ?_
  rintro - M' ⟨-, rfl⟩
  rw [wp_bind]
  refine wp_store ?_ ?_
  · rw [copied_mapped, add_assoc]
    exact hdst _ hsize
  · rw [wp_pure]
    refine ⟨rfl, rfl, text_append hu hu0 ht hn fun i hi => hdst i (by omega), fun x hx => ?_⟩
    rw [put_bytes_of_ne (by omega), copied_outside (by omega)]

theorem wp_strlcpy (ht : Text M src t) (hdst : Mapped M dst size) (hsize : 0 < size)
    (hapart : src + t.length < dst ∨ dst + size ≤ src) :
    wp (strlcpy dst src size) M fun r M' => r = t.length ∧ M'.mapped = M.mapped ∧
      Text M' dst (t.take (size - 1)) ∧ ∀ x, x < dst ∨ dst + size ≤ x → M'.bytes x = M.bytes x := by
  simp only [strlcpy, wp_bind, wp_check]
  refine ⟨hdst.ne_null.resolve_right hsize.ne', ht.ne_null, wp_mono (wp_strlen ht) ?_⟩
  rintro - M' ⟨rfl, rfl⟩
  have htake : t.take (if t.length < size - 1 then t.length else size - 1) = t.take (size - 1) := by
    split_ifs with hlt
    · rw [take_length, take_of_length_le hlt.le]
    · rfl
  rw [if_pos hsize, ← htake]
  exact wp_appendCopy (u := []) trivial (fun _ h => by cases h) ht (by split_ifs <;> omega) hdst
    (by rw [length_nil]; split_ifs <;> omega) hapart

theorem wp_strlcat (hu : Text M dst u) (ht : Text M src t) (hdst : Mapped M dst size)
    (hsize : u.length < size) (hapart : src + t.length < dst ∨ dst + size ≤ src) :
    wp (strlcat dst src size) M fun r M' => r = t.length + u.length ∧
      Text M' dst ((u ++ t).take (size - 1)) ∧
      ∀ x, x < dst ∨ dst + size ≤ x → M'.bytes x = M.bytes x := by
  simp only [strlcat, wp_bind, wp_check]
  refine ⟨hu.ne_null, ht.ne_null, wp_mono (wp_strlen ht) ?_⟩
  rintro - M' ⟨rfl, rfl⟩
  refine wp_mono (wp_strlen hu) ?_
  rintro - M' ⟨rfl, rfl⟩
  -- the two strings are in memory, one beside the other
  have hlen : t.length + u.length < 2 ^ 64 := by
    have h₁ := M'.bounded _ (ht.mapped t.length (Nat.lt_succ_self _))
    have h₂ := M'.bounded _ (hdst (size - 1) (by omega))
    omega
  have htake : (u ++ t).take (size - 1) =
      u ++ t.take (if t.length < size - u.length - 1 then t.length else size - u.length - 1) := by
    rw [take_append, take_of_length_le (by omega : u.length ≤ size - 1)]
    split_ifs with hlt
    · rw [take_length, take_of_length_le (by omega)]
    · rw [Nat.sub_right_comm]
  rw [if_pos ⟨by omega, hsize⟩, htake, Nat.mod_eq_of_lt hlen]
  refine wp_mono (wp_appendCopy (holds_append.1 hu.bytes).1 hu.nonzero ht
    (by split_ifs <;> omega) hdst (by split_ifs <;> omega) hapart) ?_
  rintro r M'' ⟨hr, -, htext, hframe⟩
  exact ⟨hr, htext, hframe⟩

end Bounded

/-- A string built by `strlcpy` and `strlcat` in a buffer of `size` bytes is the first `size - 1`
characters of both strings together. No byte outside of the buffer is written, and characters were
lost exactly when one of the two results is at least `size`. -/
theorem strlcpy_strlcat (M : Memory) (dst src₁ src₂ size : Nat) (a b : List UInt8)
    (hsize : 1 ≤ size) (hdst : Mapped M dst size) (ha : Text M src₁ a) (hb : Text M src₂ b)
    (hapart₁ : src₁ + a.length < dst ∨ dst + size ≤ src₁)
    (hapart₂ : src₂ + b.length < dst ∨ dst + size ≤ src₂) :
    ∃ r₁ M₁ r₂ M₂, strlcpy dst src₁ size M = .ok (r₁, M₁) ∧
      strlcat dst src₂ size M₁ = .ok (r₂, M₂) ∧ Text M₂ dst ((a ++ b).take (size - 1)) ∧
      (∀ x, x < dst ∨ dst + size ≤ x → M₂.bytes x = M.bytes x) ∧
      ((a ++ b).take (size - 1) ≠ a ++ b ↔ size ≤ r₁ ∨ size ≤ r₂) := by
  obtain ⟨r₁, M₁, hcpy, rfl, hmapped, htext, hframe⟩ := wp_strlcpy ha hdst hsize hapart₁
  have hlen : (a.take (size - 1)).length = min (size - 1) a.length := length_take
  have hb' : Text M₁ src₂ b := hb.congr hmapped fun i hi => hframe _ (by omega)
  obtain ⟨r₂, M₂, hcat, rfl, htext₂, hframe₂⟩ := wp_strlcat htext hb'
    (fun i hi => by rw [hmapped]; exact hdst i hi) (by omega) hapart₂
  refine ⟨_, M₁, _, M₂, hcpy, hcat, ?_, fun x hx => (hframe₂ x hx).trans (hframe x hx), ?_⟩
  · have htake : (a.take (size - 1) ++ b).take (size - 1) = (a ++ b).take (size - 1) := by
      rw [take_append, take_append, take_take, Nat.min_self, hlen]
      congr 2
      omega
    exact htake ▸ htext₂
  · rw [ne_eq, take_eq_self_iff, length_append, hlen]
    omega

/-- Two strings of two characters at 1 and 4, and room behind them. -/
def twoStrings : Memory := { sixteen with bytes := fun a => [0, 97, 98, 0, 99, 100, 0].getD a 0 }

/-- The second string fits in part. -/
theorem strlcpy_strlcat_cut :
    ∃ r₁ M₁ r₂ M₂, strlcpy 8 1 4 twoStrings = .ok (r₁, M₁) ∧ strlcat 8 4 4 M₁ = .ok (r₂, M₂) ∧
      Text M₂ 8 [97, 98, 99] ∧ (4 ≤ r₁ ∨ 4 ≤ r₂) := by
  have hmapped : ∀ a n, 0 < a → a + n ≤ 16 → Mapped twoStrings a n := fun a n ha hn i hi => by
    simp only [twoStrings, sixteen, decide_eq_true_eq]
    omega
  obtain ⟨r₁, M₁, r₂, M₂, hcpy, hcat, htext, -, hcut⟩ := strlcpy_strlcat twoStrings 8 1 4 4 [97, 98]
    [99, 100] (by decide) (hmapped 8 4 (by decide) (by decide))
    ⟨hmapped 1 3 (by decide) (by decide), ⟨rfl, rfl, rfl, trivial⟩, by simp⟩
    ⟨hmapped 4 3 (by decide) (by decide), ⟨rfl, rfl, rfl, trivial⟩, by simp⟩ (by decide) (by decide)
  exact ⟨r₁, M₁, r₂, M₂, hcpy, hcat, htext, hcut.1 (by decide)⟩

end Pintos.LibC.Strings
