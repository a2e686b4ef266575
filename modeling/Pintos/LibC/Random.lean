import Mathlib.Tactic
import Mathlib.Logic.Equiv.Basic

/-!
# The pseudo-random number generator

`lib/random.c`, and `tests/arc4.c`, which has the same cipher once more: with indices of type `int`
that are masked where the generator has bytes that wrap around, and with a counter for the key where
the generator takes a remainder. Both key schedules lead to the same state (`arc4_schedule`), and
from there both give the same bytes (`arc4Crypt_zeros`). `prng_is_rc4` is about any sequence of
requests.
-/

set_option autoImplicit false

namespace Pintos.LibC.Random

open List

/-- `uint8_t s[256]`. -/
abbrev Box : Type := Fin 256 → UInt8

/-- `swap_byte`. -/
def swapByte (s : Box) (a b : Fin 256) : Box := Function.update (Function.update s a (s b)) b (s a)

/-- `s[i] = i` for all `i`. -/
def identity : Box := fun i => UInt8.ofNat i.val

/-! ## The generator -/

/-- The state of `random.c`. -/
structure Prng where
  s : Box
  si : UInt8
  sj : UInt8
  inited : Bool

/-- `seedp[k]`: the bytes of the seed, least significant byte first. -/
def seedp (seed : UInt32) (k : Nat) : UInt8 := UInt8.ofNat (seed.toNat / 256 ^ k)

/-- A round of the second loop of `random_init`. -/
def scheduleRound (seed : UInt32) (p : Box × UInt8) (i : Nat) : Box × UInt8 :=
  let j := p.2 + (p.1 (Fin.ofNat 256 i) + seedp seed (i % 4))
  (swapByte p.1 (Fin.ofNat 256 i) j.toFin, j)

/-- The second loop of `random_init`, for `n` rounds. -/
def schedule (seed : UInt32) (n : Nat) : Box × UInt8 :=
  (List.range n).foldl (scheduleRound seed) (identity, 0)

/-- `random_init`. -/
def randomInit (seed : UInt32) : Prng := ⟨(schedule seed 256).1, 0, 0, true⟩

/-- A round of the loop of `random_bytes`. -/
def randomByte (p : Prng) : UInt8 × Prng :=
  let si := p.si + 1
  let sj := p.sj + p.s si.toFin
  let s := swapByte p.s si.toFin sj.toFin
  let sk := s si.toFin + s sj.toFin
  (s sk.toFin, { p with s := s, si := si, sj := sj })

/-- The loop of `random_bytes`. -/
def randomLoop : Nat → Prng → List UInt8 × Prng
  | 0, p => ([], p)
  | size + 1, p =>
    let (b, p) := randomByte p
    let (buf, p) := randomLoop size p
    (b :: buf, p)

/-- `random_bytes`: the bytes that it writes. -/
def randomBytes (size : Nat) (p : Prng) : List UInt8 × Prng :=
  randomLoop size (if p.inited then p else randomInit 0)

/-- Several calls of `random_bytes`. -/
def requests : List Nat → Prng → List UInt8 × Prng
  | [], p => ([], p)
  | size :: sizes, p =>
    let (buf, p) := randomBytes size p
    let (bufs, p) := requests sizes p
    (buf ++ bufs, p)

/-! ## The cipher -/

/-- `struct arc4`. -/
structure Arc4 where
  s : Box
  i : UInt8
  j : UInt8

/-- `n & 255`, as an index. -/
def masked (n : Nat) : Fin 256 := ⟨n &&& 255, Nat.lt_succ_of_le Nat.and_le_right⟩

/-- A round of the second loop of `arc4_init`, on the array, `j` and `key_idx`. -/
def arc4Round (key : List UInt8) (p : Box × Fin 256 × Nat) (i : Nat) : Box × Fin 256 × Nat :=
  let j := masked (p.2.1.val + (p.1 (Fin.ofNat 256 i)).toNat + (key.getD p.2.2 0).toNat)
  (swapByte p.1 (Fin.ofNat 256 i) j, j, if key.length ≤ p.2.2 + 1 then 0 else p.2.2 + 1)

/-- `arc4_init`. -/
def arc4Init (key : List UInt8) : Arc4 :=
  ⟨((List.range 256).foldl (arc4Round key) (identity, 0, 0)).1, 0, 0⟩

/-- `arc4_crypt`: the bytes of the buffer after it. -/
def arc4Crypt : Arc4 → List UInt8 → List UInt8 × Arc4
  | arc4, [] => ([], arc4)
  | arc4, b :: buf =>
    let i := arc4.i + 1
    let j := arc4.j + arc4.s i.toFin
    let s := swapByte arc4.s i.toFin j.toFin
    let b := b ^^^ s (masked ((s i.toFin).toNat + (s j.toFin).toNat))
    let (buf, arc4) := arc4Crypt ⟨s, i, j⟩ buf
    (b :: buf, arc4)

/-! ## The array is a permutation -/

/-- A swap, also of a byte with itself, exchanges two values. -/
theorem swapByte_eq (s : Box) (a b : Fin 256) : swapByte s a b = s ∘ Equiv.swap a b := by
  funext x
  by_cases hb : x = b
  · rw [hb, swapByte, Function.update_self, Function.comp_apply, Equiv.swap_apply_right]
  · rw [swapByte, Function.update_of_ne hb, Function.comp_apply]
    by_cases ha : x = a
    · rw [ha, Function.update_self, Equiv.swap_apply_left]
    · rw [Function.update_of_ne ha, Equiv.swap_apply_of_ne_of_ne ha hb]

theorem bijective_swapByte {s : Box} (h : Function.Bijective s) (a b : Fin 256) :
    Function.Bijective (swapByte s a b) := by
  rw [swapByte_eq]
  exact h.comp (Equiv.swap a b).bijective

theorem bijective_identity : Function.Bijective identity := by
  refine ⟨fun a b hab => ?_, fun v => ⟨v.toFin, ?_⟩⟩
  · have hnat := congrArg UInt8.toNat hab
    rw [identity, identity, UInt8.toNat_ofNat', UInt8.toNat_ofNat', Nat.mod_eq_of_lt a.isLt,
      Nat.mod_eq_of_lt b.isLt] at hnat
    exact Fin.ext hnat
  · exact UInt8.ofNat_toNat

theorem schedule_succ (seed : UInt32) (n : Nat) :
    schedule seed (n + 1) = scheduleRound seed (schedule seed n) n := by
  rw [schedule, range_succ, foldl_append]
  rfl

theorem bijective_schedule (seed : UInt32) (n : Nat) : Function.Bijective (schedule seed n).1 := by
  induction n with
  | zero => exact bijective_identity
  | succ n ih =>
    rw [schedule_succ]
    exact bijective_swapByte ih _ _

theorem bijective_randomLoop (size : Nat) {p : Prng} (h : Function.Bijective p.s) :
    Function.Bijective (randomLoop size p).2.s := by
  induction size generalizing p with
  | zero => exact h
  | succ size ih => exact ih (bijective_swapByte h _ _)

/-! ## The two key schedules -/

/-- The seed as a key. -/
def seedKey (seed : UInt32) : List UInt8 := (List.range 4).map (seedp seed)

theorem masked_val (n : Nat) : (masked n).val = n % 256 := Nat.and_two_pow_sub_one_eq_mod n 8

theorem getD_seedKey (seed : UInt32) {k : Nat} (hk : k < 4) :
    (seedKey seed).getD k 0 = seedp seed k := by
  rw [seedKey, getD_eq_getElem?_getD, List.getElem?_map, List.getElem?_range hk]
  rfl

/-- After `n` rounds the arrays are equal, the index of one is the byte of the other, and the
counter is the remainder. -/
theorem arc4_schedule (seed : UInt32) (n : Nat) :
    (List.range n).foldl (arc4Round (seedKey seed)) (identity, 0, 0) =
      ((schedule seed n).1, (schedule seed n).2.toFin, n % 4) := by
  induction n with
  | zero => rfl
  | succ n ih =>
    have hj : masked
      ((schedule seed n).2.toFin.val + ((schedule seed n).1 (Fin.ofNat 256 n)).toNat +
        ((seedKey seed).getD (n % 4) 0).toNat) =
        ((schedule seed n).2 +
          ((schedule seed n).1 (Fin.ofNat 256 n) + seedp seed (n % 4))).toFin := by
      apply Fin.ext
      rw [masked_val, getD_seedKey seed (Nat.mod_lt _ (by decide))]
      change _ = UInt8.toNat _
      rw [UInt8.toNat_add, UInt8.toNat_add]
      change ((schedule seed n).2.toNat + _ + _) % 256 = _
      omega
    have hidx : (if (seedKey seed).length ≤ n % 4 + 1 then 0 else n % 4 + 1) = (n + 1) % 4 := by
      change (if 4 ≤ n % 4 + 1 then 0 else n % 4 + 1) = _
      split_ifs <;> omega
    rw [range_succ, foldl_append, ih, foldl_cons, foldl_nil, arc4Round, hj, hidx,
      schedule_succ]
    rfl

/-! ## The two streams -/

/-- The same state of the cipher. -/
def Prng.toArc4 (p : Prng) : Arc4 := ⟨p.s, p.si, p.sj⟩

theorem toArc4_randomInit (seed : UInt32) : (randomInit seed).toArc4 = arc4Init (seedKey seed) := by
  rw [arc4Init, arc4_schedule]
  rfl

/-- The cipher turns zeros into the bytes of the generator. -/
theorem arc4Crypt_zeros (n : Nat) (p : Prng) :
    arc4Crypt p.toArc4 (List.replicate n 0) = ((randomLoop n p).1, (randomLoop n p).2.toArc4) := by
  induction n generalizing p with
  | zero => rfl
  | succ n ih =>
    have hindex : ∀ a b : UInt8, masked (a.toNat + b.toNat) = (a + b).toFin := fun a b =>
      Fin.ext ((masked_val _).trans (UInt8.toNat_add a b).symm)
    rw [replicate_succ, arc4Crypt, hindex, UInt8.zero_xor]
    exact congrArg (fun r => ((randomByte p).1 :: r.1, r.2)) (ih (randomByte p).2)

theorem randomLoop_inited (n : Nat) (p : Prng) : (randomLoop n p).2.inited = p.inited := by
  induction n generalizing p with
  | zero => rfl
  | succ n ih => exact ih (randomByte p).2

theorem randomLoop_add (m n : Nat) (p : Prng) :
    randomLoop (m + n) p =
      ((randomLoop m p).1 ++ (randomLoop n (randomLoop m p).2).1,
        (randomLoop n (randomLoop m p).2).2) := by
  induction m generalizing p with
  | zero => rw [Nat.zero_add]; rfl
  | succ m ih =>
    rw [Nat.succ_add]
    exact congrArg (fun r => ((randomByte p).1 :: r.1, r.2)) (ih (randomByte p).2)

/-- Requests that follow one another are one request. -/
theorem requests_eq (sizes : List Nat) {p : Prng} (h : p.inited = true) :
    requests sizes p = randomLoop sizes.sum p := by
  induction sizes generalizing p with
  | nil => rfl
  | cons size sizes ih =>
    have hrest := ih ((randomLoop_inited size p).trans h)
    rw [sum_cons, randomLoop_add, ← hrest, requests, randomBytes, if_pos h]

/-- For every seed and all request sizes, the bytes of the generator are the key stream of the
cipher, with the bytes of the seed as its key and a length of all the sizes together; and the array
is a permutation after every round of the initialisation and after the requests. -/
theorem prng_is_rc4 (seed : UInt32) (sizes : List Nat) :
    (requests sizes (randomInit seed)).1 =
        (arc4Crypt (arc4Init (seedKey seed)) (List.replicate sizes.sum 0)).1 ∧
      (∀ n, Function.Bijective (schedule seed n).1) ∧
      Function.Bijective (requests sizes (randomInit seed)).2.s := by
  have hrequests := requests_eq sizes (p := randomInit seed) rfl
  refine ⟨?_, bijective_schedule seed, ?_⟩
  · rw [hrequests, ← toArc4_randomInit, arc4Crypt_zeros]
  · rw [hrequests]
    exact bijective_randomLoop _ (bijective_schedule seed 256)

end Pintos.LibC.Random
