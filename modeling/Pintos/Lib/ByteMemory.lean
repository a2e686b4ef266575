import Mathlib.Tactic

/-!
# Byte memory and little-endian numbers

A memory assigns a byte to every address. `patch` overwrites a range of addresses; filling,
copying and storing a number are patches, so one pair of lemmas (inside and outside the range)
describes them all. `readLE m n a` is the number in the `n` bytes at `a`, least significant byte
first, and depends on these bytes only (`readLE_congr`).
-/

set_option autoImplicit false

namespace Pintos.Lib.ByteMemory

open List

/-- A byte for every address. -/
abbrev Bytes : Type := Nat → UInt8

/-- The memory with the `n` bytes from `a` on replaced by `f 0`, `f 1`, and so on. -/
def patch (m : Bytes) (a n : Nat) (f : Nat → UInt8) : Bytes :=
  fun x => if a ≤ x ∧ x < a + n then f (x - a) else m x

/-- Set `n` bytes from `a` on to `b`. -/
def fill (m : Bytes) (a n : Nat) (b : UInt8) : Bytes := patch m a n fun _ => b

/-- Copy `n` bytes from `src` to `dst`. -/
def copy (m : Bytes) (dst src n : Nat) : Bytes := patch m dst n fun i => m (src + i)

/-- The byte of place value `256 ^ i` of `v`. -/
def byteLE (v i : Nat) : UInt8 := UInt8.ofNat (v / 256 ^ i)

/-- The number in the `n` bytes at an address. -/
def readLE (m : Bytes) : Nat → Nat → Nat
  | 0, _ => 0
  | n + 1, a => (m a).toNat + 256 * readLE m n (a + 1)

/-- Store the `n` low bytes of `v` at `a`. -/
def writeLE (m : Bytes) (n a v : Nat) : Bytes := patch m a n (byteLE v)

variable {m : Bytes} {a n x k b v : Nat} {f : Nat → UInt8} {l : List UInt8}

theorem patch_inside (h1 : a ≤ x) (h2 : x < a + n) : patch m a n f x = f (x - a) :=
  if_pos ⟨h1, h2⟩

theorem patch_outside (h : x < a ∨ a + n ≤ x) : patch m a n f x = m x := by
  have hx : ¬ (a ≤ x ∧ x < a + n) := by omega
  exact if_neg hx

/-- A patch of adjacent ranges, one after the other. -/
theorem patch_append (m : Bytes) (a k n : Nat) (f : Nat → UInt8) :
    patch (patch m a k f) (a + k) n (fun i => f (k + i)) = patch m a (k + n) f := by
  funext x
  by_cases hfirst : a ≤ x ∧ x < a + k
  · rw [patch_outside (by omega), patch_inside hfirst.1 hfirst.2,
      patch_inside (by omega) (by omega)]
  · by_cases hsecond : a + k ≤ x ∧ x < a + k + n
    · rw [patch_inside hsecond.1 hsecond.2, patch_inside (by omega) (by omega)]
      congr 1
      omega
    · rw [patch_outside (by omega), patch_outside (by omega), patch_outside (by omega)]

/-- Writing back a range of which only a part was changed changes that part. -/
theorem patch_part (m : Bytes) {o : Nat} (f : Nat → UInt8) (h : o + n ≤ k) :
    patch m a k (patch (fun i => m (a + i)) o n f) = patch m (a + o) n f := by
  funext x
  by_cases hin : a ≤ x ∧ x < a + k
  · rw [patch_inside hin.1 hin.2]
    by_cases hpart : a + o ≤ x ∧ x < a + o + n
    · rw [patch_inside (by omega) (by omega), patch_inside hpart.1 hpart.2]
      congr 1
      omega
    · rw [patch_outside (by omega), patch_outside (by omega), Nat.add_sub_cancel' hin.1]
  · rw [patch_outside (by omega), patch_outside (by omega)]

@[simp] theorem patch_zero (m : Bytes) (a : Nat) (f : Nat → UInt8) : patch m a 0 f = m := by
  funext x
  exact patch_outside (by omega)

theorem patch_patch (m : Bytes) (a n : Nat) (f g : Nat → UInt8) :
    patch (patch m a n f) a n g = patch m a n g := by
  funext x
  by_cases hx : a ≤ x ∧ x < a + n
  · rw [patch_inside hx.1 hx.2, patch_inside hx.1 hx.2]
  · rw [patch_outside (by omega), patch_outside (by omega), patch_outside (by omega)]

theorem patch_congr {g : Nat → UInt8} (h : ∀ i < n, f i = g i) :
    patch m a n f = patch m a n g := by
  funext x
  by_cases hx : a ≤ x ∧ x < a + n
  · rw [patch_inside hx.1 hx.2, patch_inside hx.1 hx.2, h _ (by omega)]
  · rw [patch_outside (by omega), patch_outside (by omega)]

theorem readLE_congr {m' : Bytes} (h : ∀ i < n, m (a + i) = m' (b + i)) :
    readLE m n a = readLE m' n b := by
  induction n generalizing a b with
  | zero => rfl
  | succ n ih =>
    have h0 : m a = m' b := h 0 (by omega)
    have hrest : readLE m n (a + 1) = readLE m' n (b + 1) := by
      apply ih
      intro i hi
      have := h (i + 1) (by omega)
      rwa [add_assoc, add_comm 1 i, add_assoc, add_comm 1 i]
    rw [readLE, readLE, h0, hrest]

theorem readLE_lt (m : Bytes) (n a : Nat) : readLE m n a < 256 ^ n := by
  induction n generalizing a with
  | zero => simp [readLE]
  | succ n ih =>
    have hb : (m a).toNat < 256 := (m a).toNat_lt
    have hr := ih (a + 1)
    rw [readLE, pow_succ]
    omega

theorem readLE_patch_outside (h : b + n ≤ a ∨ a + k ≤ b) :
    readLE (patch m a k f) n b = readLE m n b := by
  apply readLE_congr
  intro i hi
  exact patch_outside (by omega)

/-- The number `0` is stored as zero bytes only. -/
theorem readLE_eq_zero (h : readLE m n a = 0) (h1 : a ≤ x) (h2 : x < a + n) : m x = 0 := by
  induction n generalizing a with
  | zero => omega
  | succ n ih =>
    rw [readLE] at h
    by_cases hx : x = a
    · subst hx
      have hb : (m x).toNat = (0 : UInt8).toNat := by
        rw [UInt8.toNat_zero]
        omega
      exact UInt8.toNat_inj.1 hb
    · have hrest : readLE m n (a + 1) = 0 := by omega
      exact ih hrest (by omega) (by omega)

theorem byteLE_succ (v i : Nat) : byteLE v (i + 1) = byteLE (v / 256) i := by
  rw [byteLE, byteLE, Nat.div_div_eq_div_mul, pow_succ, mul_comm]

/-- A number read from bytes that agree with the bytes of `v` is `v`, up to the width. -/
theorem readLE_of_byteLE (h : ∀ i < n, m (a + i) = byteLE v i) :
    readLE m n a = v % 256 ^ n := by
  induction n generalizing a v with
  | zero => simp [readLE, Nat.mod_one]
  | succ n ih =>
    have h0 : (m a).toNat = v % 256 := by
      have := h 0 (by omega)
      rw [add_zero] at this
      rw [this, byteLE, pow_zero, Nat.div_one, UInt8.toNat_ofNat']
    have hrest : readLE m n (a + 1) = v / 256 % 256 ^ n := by
      apply ih
      intro i hi
      rw [add_assoc, add_comm 1 i, h (i + 1) (by omega), byteLE_succ]
    rw [readLE, h0, hrest, pow_succ', Nat.mod_mul]

theorem readLE_writeLE (m : Bytes) (n a v : Nat) : readLE (writeLE m n a v) n a = v % 256 ^ n := by
  apply readLE_of_byteLE
  intro i hi
  rw [writeLE, patch_inside (by omega) (by omega), Nat.add_sub_cancel_left]

theorem readLE_writeLE_outside (h : b + n ≤ a ∨ a + k ≤ b) :
    readLE (writeLE m k a v) n b = readLE m n b :=
  readLE_patch_outside h

theorem readLE_fill_zero (h1 : a ≤ b) (h2 : b + n ≤ a + k) :
    readLE (fill m a k 0) n b = 0 := by
  have hz : readLE (fill m a k 0) n b = 0 % 256 ^ n := by
    apply readLE_of_byteLE
    intro i hi
    rw [fill, patch_inside (by omega) (by omega)]
    simp [byteLE]
  rw [hz, Nat.zero_mod]

theorem readLE_copy {dst src i : Nat} (h : i + n ≤ k) :
    readLE (copy m dst src k) n (dst + i) = readLE m n (src + i) := by
  apply readLE_congr
  intro j hj
  rw [copy, patch_inside (by omega) (by omega)]
  congr 1
  omega

/-! ## Lists of bytes in a memory -/

/-- The bytes of the list stand in the memory from an address on. -/
def Holds (m : Bytes) : Nat → List UInt8 → Prop
  | _, [] => True
  | a, b :: l => m a = b ∧ Holds m (a + 1) l

theorem holds_append {l' : List UInt8} :
    Holds m a (l ++ l') ↔ Holds m a l ∧ Holds m (a + l.length) l' := by
  induction l generalizing a with
  | nil => simp [Holds]
  | cons b l ih =>
    have hadd : a + 1 + l.length = a + (b :: l).length := by
      rw [length_cons]
      omega
    rw [cons_append, Holds, Holds, ih, hadd, and_assoc]

theorem holds_iff :
    Holds m a l ↔ ∀ j < l.length, m (a + j) = l.getD j 0 := by
  induction l generalizing a with
  | nil => simp [Holds]
  | cons b l ih =>
    rw [Holds, ih]
    constructor
    · rintro ⟨hb, hl⟩ j hj
      cases j with
      | zero => exact hb
      | succ j =>
        have hbyte := hl j (Nat.lt_of_succ_lt_succ hj)
        rwa [add_assoc, add_comm 1 j] at hbyte
    · intro h
      refine ⟨h 0 (Nat.succ_pos _), ?_⟩
      intro j hj
      rw [add_assoc, add_comm 1 j]
      exact h (j + 1) (Nat.succ_lt_succ hj)

theorem Holds.congr {m' : Bytes} (h : Holds m a l) (heq : ∀ j < l.length, m' (a + j) = m (a + j)) :
    Holds m' a l := by
  rw [holds_iff] at h ⊢
  intro j hj
  exact (heq j hj).trans (h j hj)

/-- The `n` low bytes of a number, least significant byte first. -/
def bytesLE (n v : Nat) : List UInt8 := (List.range n).map (byteLE v)

theorem length_bytesLE (n v : Nat) : (bytesLE n v).length = n := by
  rw [bytesLE, length_map, length_range]

theorem getD_bytesLE {j : Nat} (h : j < n) : (bytesLE n v).getD j 0 = byteLE v j := by
  rw [bytesLE, getD_eq_getElem?_getD, List.getElem?_map, List.getElem?_range h]
  rfl

/-- The number is read from where its bytes are. -/
theorem readLE_of_holds (h : Holds m a (bytesLE n v)) :
    readLE m n a = v % 256 ^ n := by
  apply readLE_of_byteLE
  intro j hj
  rw [← getD_bytesLE hj]
  exact holds_iff.1 h j (by rwa [length_bytesLE])

/-- The `n` bytes from an address on. -/
def bytesAt (m : Bytes) (a n : Nat) : List UInt8 := (List.range n).map fun j => m (a + j)

/-- Bytes that stand in the memory are read from it, and then those after them. -/
theorem bytesAt_of_holds (h : Holds m a l) (hn : l.length ≤ n) :
    bytesAt m a n = l ++ bytesAt m (a + l.length) (n - l.length) := by
  induction l generalizing a n with
  | nil => rfl
  | cons b l ih =>
    obtain ⟨k, rfl⟩ : ∃ k, n = k + 1 := Nat.exists_eq_add_one.2 (lt_of_lt_of_le (Nat.succ_pos _) hn)
    have hfirst : bytesAt m a (k + 1) = m a :: bytesAt m (a + 1) k := by
      rw [bytesAt, range_succ_eq_map, map_cons, map_map, bytesAt]
      congr 1
      apply map_congr_left
      intro j _
      show m (a + (j + 1)) = m (a + 1 + j)
      rw [add_assoc, add_comm 1 j]
    rw [hfirst, ih h.2 (Nat.le_of_succ_le_succ hn), h.1, cons_append, length_cons,
      Nat.add_sub_add_right, add_assoc, add_comm 1]

end Pintos.Lib.ByteMemory
