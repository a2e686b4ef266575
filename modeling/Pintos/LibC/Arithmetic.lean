import Mathlib.Tactic

/-!
# 64-bit division

The routines of `lib/arithmetic.c` divide 64-bit numbers with an instruction that divides a 64-bit
number by a 32-bit one and traps when the quotient does not fit in 32 bits. For a divisor of more
than 32 bits the quotient is estimated: the divisor is normalised, cut to its upper 32 bits, and
the halved dividend divided by it. `estimate_bounds` is the argument about naturals: cutting the
divisor makes it smaller by so little that the estimate is at most one too large. The rest of the
module reads the machine words against it.

The remainders are computed from the quotients, but pass through helpers that return 32 bits:
`remainder_exact_iff` says which of them survive.
-/

set_option autoImplicit false

namespace Pintos.LibC.Arithmetic

/-! ## The functions -/

/-- `divl`: the quotient of a 64-bit by a 32-bit number, or `none` when the instruction traps with a
divide error. -/
def divl (n : UInt64) (d : UInt32) : Option UInt32 :=
  if d = 0 ∨ 2 ^ 32 ≤ n.toNat / d.toNat then none else some (n / d.toUInt64).toUInt32

/-- One of the steps of `nlz`: move a number that is at most `bound` up by `k` bits. -/
def nlzStep (bound k : UInt32) (p : Nat × UInt32) : Nat × UInt32 :=
  if p.2 ≤ bound then (p.1 + k.toNat, p.2 <<< k) else p

/-- `nlz`: the number of leading zero bits. -/
def nlz (x : UInt32) : Nat :=
  let p := nlzStep 0x0000FFFF 16 (0, x)
  let p := nlzStep 0x00FFFFFF 8 p
  let p := nlzStep 0x0FFFFFFF 4 p
  let p := nlzStep 0x3FFFFFFF 2 p
  if p.2 ≤ 0x7FFFFFFF then p.1 + 1 else p.1

/-- `udiv64`, with `none` for a trap. -/
def udiv64 (n d : UInt64) : Option UInt64 := do
  if d >>> 32 = 0 then
    let b := (1 : UInt64) <<< 32
    let n1 := (n >>> 32).toUInt32
    let n0 := n.toUInt32
    let d0 := d.toUInt32
    let q ← divl (b * (n1 % d0).toUInt64 + n0.toUInt64) d0
    return q.toUInt64 + b * (n1 / d0).toUInt64
  else if n < d then
    return 0
  else
    let d1 := (d >>> 32).toUInt32
    let s := nlz d1
    let q32 ← divl (n >>> 1) ((d <<< UInt64.ofNat s) >>> 32).toUInt32
    let q := (q32 >>> UInt32.ofNat (31 - s)).toUInt64
    return if n - (q - 1) * d < d then q - 1 else q

/-- `sdiv64`, with `none` for a trap. -/
def sdiv64 (n d : Int64) : Option Int64 := do
  let nAbs := if n ≥ 0 then n.toUInt64 else -n.toUInt64
  let dAbs := if d ≥ 0 then d.toUInt64 else -d.toUInt64
  let qAbs ← udiv64 nAbs dAbs
  return if (decide (n < 0)) = decide (d < 0) then qAbs.toInt64 else -qAbs.toInt64

/-- `umod64`: the remainder, returned as a 32-bit number. -/
def umod64 (n d : UInt64) : Option UInt32 := do
  let q ← udiv64 n d
  return (n - d * q).toUInt32

/-- `smod64`: the remainder, returned as a 32-bit number. -/
def smod64 (n d : Int64) : Option Int32 := do
  let q ← sdiv64 n d
  return (n - d * q).toInt32

/-- `__divdi3`. -/
def divdi3 (n d : Int64) : Option Int64 := sdiv64 n d

/-- `__moddi3`. -/
def moddi3 (n d : Int64) : Option Int64 := do
  let r ← smod64 n d
  return r.toInt64

/-- `__udivdi3`. -/
def udivdi3 (n d : UInt64) : Option UInt64 := udiv64 n d

/-- `__umoddi3`. -/
def umoddi3 (n d : UInt64) : Option UInt64 := do
  let r ← umod64 n d
  return r.toUInt64

/-! ## The trapping instruction -/

variable {n d q : UInt64}

theorem divl_eq {d : UInt32} (hd : 0 < d.toNat) (hq : n.toNat / d.toNat < 2 ^ 32) :
    ∃ q, divl n d = some q ∧ q.toNat = n.toNat / d.toNat := by
  have hne : d ≠ 0 := by
    rintro rfl
    exact absurd hd (by decide)
  refine ⟨_, if_neg (not_or.2 ⟨hne, not_le.2 hq⟩), ?_⟩
  rw [UInt64.toNat_toUInt32, UInt64.toNat_div, UInt32.toNat_toUInt64, Nat.mod_eq_of_lt hq]

/-! ## Normalisation -/

/-- A step keeps the number up to the shift that it counts, and brings it to `32 - k` bits. -/
theorem nlzStep_spec (bound k : UInt32) (p : Nat × UInt32) (hk : k.toNat ≤ 16)
    (hbound : bound.toNat + 1 = 2 ^ (32 - k.toNat)) (hlow : 2 ^ (32 - 2 * k.toNat) ≤ p.2.toNat) :
    p.2.toNat * 2 ^ (nlzStep bound k p).1 = (nlzStep bound k p).2.toNat * 2 ^ p.1 ∧
      2 ^ (32 - k.toNat) ≤ (nlzStep bound k p).2.toNat ∧ (nlzStep bound k p).1 ≤ p.1 + k.toNat := by
  rw [nlzStep]
  split_ifs with h
  · have hle : p.2.toNat ≤ bound.toNat := UInt32.le_iff_toNat_le.1 h
    have hpow : 2 ^ (32 - k.toNat) * 2 ^ k.toNat = 2 ^ 32 := by
      rw [← pow_add]
      congr 1
      omega
    have hlt : p.2.toNat * 2 ^ k.toNat < 2 ^ 32 := by
      rw [← hpow]
      exact Nat.mul_lt_mul_of_pos_right (by omega) (by positivity)
    have hshift : (p.2 <<< k).toNat = p.2.toNat * 2 ^ k.toNat := by
      rw [UInt32.toNat_shiftLeft, Nat.mod_eq_of_lt (by omega : k.toNat < 32), Nat.shiftLeft_eq,
        Nat.mod_eq_of_lt hlt]
    refine ⟨?_, ?_, le_rfl⟩
    · rw [hshift, pow_add]
      ring
    · rw [hshift]
      have hsplit : 2 ^ (32 - k.toNat) = 2 ^ (32 - 2 * k.toNat) * 2 ^ k.toNat := by
        rw [← pow_add]
        congr 1
        omega
      rw [hsplit]
      exact Nat.mul_le_mul_right _ hlow
  · have hgt : bound.toNat < p.2.toNat := by
      rw [UInt32.le_iff_toNat_le] at h
      omega
    exact ⟨rfl, by omega, by omega⟩

/-- Shifted by `nlz`, a number has its highest bit set. -/
theorem nlz_spec {x : UInt32} (hx : 0 < x.toNat) :
    nlz x ≤ 31 ∧ 2 ^ 31 ≤ x.toNat * 2 ^ nlz x ∧ x.toNat * 2 ^ nlz x < 2 ^ 32 := by
  -- after the steps of 16, 8, 4 and 2 bits the number has at least 16, 24, 28 and 30 bits
  obtain ⟨e1, l1, n1⟩ := nlzStep_spec 0x0000FFFF 16 (0, x) (by decide) (by decide) hx
  obtain ⟨e2, l2, n2⟩ := nlzStep_spec 0x00FFFFFF 8 _ (by decide) (by decide) l1
  obtain ⟨e3, l3, n3⟩ := nlzStep_spec 0x0FFFFFFF 4 _ (by decide) (by decide) l2
  obtain ⟨e4, l4, n4⟩ := nlzStep_spec 0x3FFFFFFF 2 _ (by decide) (by decide) l3
  rw [nlz]
  generalize nlzStep 0x0000FFFF 16 (0, x) = p1 at *
  generalize nlzStep 0x00FFFFFF 8 p1 = p2 at *
  generalize nlzStep 0x0FFFFFFF 4 p2 = p3 at *
  generalize nlzStep 0x3FFFFFFF 2 p3 = p4 at *
  have hk : (16 : UInt32).toNat = 16 ∧ (8 : UInt32).toNat = 8 ∧ (4 : UInt32).toNat = 4 ∧
      (2 : UInt32).toNat = 2 := by decide
  obtain ⟨k1, k2, k3, k4⟩ := hk
  rw [k4] at n4 l4
  rw [pow_zero, mul_one] at e1
  have hshift : x.toNat * 2 ^ p4.1 = p4.2.toNat := by
    have h12 : x.toNat * 2 ^ p2.1 = p2.2.toNat := by
      refine Nat.eq_of_mul_eq_mul_right (by positivity : 0 < 2 ^ p1.1) ?_
      rw [← e2, ← e1]
      ring
    have h13 : x.toNat * 2 ^ p3.1 = p3.2.toNat := by
      refine Nat.eq_of_mul_eq_mul_right (by positivity : 0 < 2 ^ p2.1) ?_
      rw [← e3, ← h12]
      ring
    refine Nat.eq_of_mul_eq_mul_right (by positivity : 0 < 2 ^ p3.1) ?_
    rw [← e4, ← h13]
    ring
  have hword : p4.2.toNat < 2 ^ 32 := p4.2.toNat_lt
  split_ifs with h
  · have hle : p4.2.toNat ≤ 0x7FFFFFFF := UInt32.le_iff_toNat_le.1 h
    have hdouble : x.toNat * 2 ^ (p4.1 + 1) = 2 * p4.2.toNat := by
      rw [← hshift]
      ring
    omega
  · have hgt : 0x7FFFFFFF < p4.2.toNat := by
      exact not_le.1 h
    omega

/-! ## The estimate -/

/-- What `nlz` says of the upper half of a divisor holds of the divisor. -/
theorem normalised_bounds {d s : Nat} (hs : s ≤ 32) (hlo : 2 ^ 31 ≤ d / 2 ^ 32 * 2 ^ s)
    (hhi : d / 2 ^ 32 * 2 ^ s < 2 ^ 32) : 2 ^ 63 ≤ d * 2 ^ s ∧ d * 2 ^ s < 2 ^ 64 := by
  refine ⟨?_, ?_⟩
  · calc 2 ^ 63 = 2 ^ 31 * 2 ^ 32 := by norm_num
      _ ≤ d / 2 ^ 32 * 2 ^ s * 2 ^ 32 := Nat.mul_le_mul_right _ hlo
      _ = d / 2 ^ 32 * 2 ^ 32 * 2 ^ s := by ring
      _ ≤ d * 2 ^ s := Nat.mul_le_mul_right _ (Nat.div_mul_le_self _ _)
  · -- the shifted upper half is a multiple of `2 ^ s`, so the lower half does not carry it over
    have hcarry : d / 2 ^ 32 * 2 ^ s + 2 ^ s ≤ 2 ^ 32 := by
      have h32 : 2 ^ s * 2 ^ (32 - s) = 2 ^ 32 := by
        rw [← pow_add]
        congr 1
        omega
      have hlt : d / 2 ^ 32 < 2 ^ (32 - s) := by
        refine Nat.lt_of_mul_lt_mul_left (a := 2 ^ s) ?_
        rw [h32, mul_comm]
        exact hhi
      calc d / 2 ^ 32 * 2 ^ s + 2 ^ s = 2 ^ s * (d / 2 ^ 32 + 1) := by ring
        _ ≤ 2 ^ s * 2 ^ (32 - s) := Nat.mul_le_mul_left _ hlt
        _ = 2 ^ 32 := h32
    calc d * 2 ^ s < (d / 2 ^ 32 + 1) * 2 ^ 32 * 2 ^ s :=
          Nat.mul_lt_mul_of_pos_right (by omega) (by positivity)
      _ = (d / 2 ^ 32 * 2 ^ s + 2 ^ s) * 2 ^ 32 := by ring
      _ ≤ 2 ^ 32 * 2 ^ 32 := Nat.mul_le_mul_right _ hcarry

/-- The quotient by the divisor cut to its upper 32 bits: with `A = 2 ^ s` the shift that normalises
`d`, and `A * C = 2 ^ 31`, the estimate is the true quotient or one more. -/
theorem estimate_bounds {n d v A C : Nat} (hn : n < 2 ^ 64) (hdn : d ≤ n) (hAC : A * C = 2 ^ 31)
    (hlo : 2 ^ 63 ≤ d * A) (hv : v = d * A / 2 ^ 32) :
    n / 2 / v < 2 ^ 32 ∧ n / d ≤ n / 2 / v / C ∧ n / 2 / v / C ≤ n / d + 1 := by
  have hC : 0 < C := pos_of_ne_zero (by rintro rfl; omega)
  have hA : 0 < A := pos_of_ne_zero (by rintro rfl; omega)
  have hd : 0 < d := pos_of_ne_zero (by rintro rfl; omega)
  have hv31 : 2 ^ 31 ≤ v := by omega
  have hvle : v * 2 ^ 32 ≤ d * A := by omega
  have hvlt : d * A < (v + 1) * 2 ^ 32 := by omega
  -- the cut divisor `w` is at most `2 * C - 1` smaller than `d`
  obtain ⟨w, hw⟩ : ∃ w, w = 2 * v * C := ⟨_, rfl⟩
  have hwA : w * A = v * 2 ^ 32 := by
    calc w * A = 2 * v * (A * C) := by rw [hw]; ring
      _ = v * 2 ^ 32 := by rw [hAC]; ring
  have hwd : w ≤ d := Nat.le_of_mul_le_mul_right (by rw [hwA]; exact hvle) hA
  have hdw : d < w + 2 * C := by
    refine Nat.lt_of_mul_lt_mul_right (a := A) ?_
    calc d * A < (v + 1) * 2 ^ 32 := hvlt
      _ = w * A + 2 * (A * C) := by rw [hwA, hAC]; ring
      _ = (w + 2 * C) * A := by ring
  have hdiv : n / 2 / v / C = n / w := by
    rw [Nat.div_div_eq_div_mul, Nat.div_div_eq_div_mul, hw, mul_assoc]
  have hwpos : 0 < w := by rw [hw]; positivity
  refine ⟨?_, ?_, ?_⟩
  · exact (Nat.div_lt_iff_lt_mul (by omega)).2 (by omega)
  · rw [hdiv]
    exact Nat.div_le_div_left hwd hwpos
  · rw [hdiv]
    -- the true quotient is below `2 * A`, so the whole error is at most one more `w`
    have hQ : n / d + 1 ≤ 2 * A := by
      refine (Nat.div_lt_iff_lt_mul hd).2 ?_
      calc n < 2 * 2 ^ 63 := by omega
        _ ≤ 2 * (d * A) := Nat.mul_le_mul_left _ hlo
        _ = 2 * A * d := by ring
    have herr : (n / d + 1) * (d - w) ≤ w := by
      have hw32 : 2 ^ 32 * C ≤ w := by
        rw [hw]
        exact Nat.mul_le_mul_right _ (by omega)
      have hbound : 2 * A * (2 * C - 1) ≤ 2 ^ 32 * C := by
        have hexp : 2 * A * (2 * C - 1) + 2 * A = 2 ^ 33 := by
          calc 2 * A * (2 * C - 1) + 2 * A = 2 * A * (2 * C - 1 + 1) := by ring
            _ = 4 * (A * C) := by rw [Nat.sub_add_cancel (by omega)]; ring
            _ = 2 ^ 33 := by omega
        rcases Nat.lt_or_ge 1 C with h | h
        · omega
        · obtain rfl : C = 1 := by omega
          omega
      calc (n / d + 1) * (d - w) ≤ 2 * A * (2 * C - 1) := Nat.mul_le_mul hQ (by omega)
        _ ≤ w := hbound.trans hw32
    refine Nat.lt_succ_iff.1 ((Nat.div_lt_iff_lt_mul hwpos).2 ?_)
    calc n < (n / d + 1) * d := by
          rw [mul_comm]
          exact Nat.lt_mul_div_succ n hd
      _ = (n / d + 1) * w + (n / d + 1) * (d - w) := by
          rw [← mul_add, Nat.add_sub_cancel' hwd]
      _ ≤ (n / d + 1) * w + w := by omega
      _ = (n / d + 1).succ * w := (Nat.succ_mul _ _).symm

/-- The correction: an estimate that is exact or one too large is corrected, and none of the
intermediate values wraps. -/
theorem corrected_eq (hd : 0 < d.toNat) (hdn : d.toNat ≤ n.toNat)
    (hlo : n.toNat / d.toNat ≤ q.toNat) (hhi : q.toNat ≤ n.toNat / d.toNat + 1) :
    (if n - (q - 1) * d < d then q - 1 else q).toNat = n.toNat / d.toNat := by
  obtain ⟨Q, hQ⟩ : ∃ Q, Q = n.toNat / d.toNat := ⟨_, rfl⟩
  have hQ1 : 1 ≤ Q := by rw [hQ]; exact Nat.div_pos hdn hd
  have hmul : Q * d.toNat ≤ n.toNat := by rw [hQ]; exact Nat.div_mul_le_self _ _
  have hnext : n.toNat < Q * d.toNat + d.toNat := by
    rw [hQ, mul_comm]
    exact Nat.lt_mul_div_succ _ hd
  rw [← hQ] at hlo hhi ⊢
  have hn : n.toNat < 2 ^ 64 := n.toNat_lt
  have hpred : (q - 1).toNat = q.toNat - 1 :=
    UInt64.toNat_sub_of_le _ _ (UInt64.le_iff_toNat_le.2 (by
      change 1 ≤ q.toNat
      omega))
  have hprod : ((q - 1) * d).toNat = (q.toNat - 1) * d.toNat := by
    rw [UInt64.toNat_mul, hpred, Nat.mod_eq_of_lt]
    calc (q.toNat - 1) * d.toNat ≤ Q * d.toNat := Nat.mul_le_mul_right _ (by omega)
      _ < 2 ^ 64 := by omega
  have hle : (q.toNat - 1) * d.toNat ≤ n.toNat :=
    (Nat.mul_le_mul_right _ (by omega : q.toNat - 1 ≤ Q)).trans hmul
  have hdiff : (n - (q - 1) * d).toNat = n.toNat - (q.toNat - 1) * d.toNat := by
    rw [UInt64.toNat_sub_of_le _ _ (UInt64.le_iff_toNat_le.2 (by rw [hprod]; exact hle)), hprod]
  have hlt := UInt64.lt_iff_toNat_lt (a := n - (q - 1) * d) (b := d)
  rw [hdiff] at hlt
  rcases (by omega : q.toNat = Q ∨ q.toNat = Q + 1) with h | h
  · have hsub : (q.toNat - 1) * d.toNat + d.toNat = Q * d.toNat := by
      rw [h, ← Nat.succ_mul, Nat.succ_eq_add_one, Nat.sub_add_cancel hQ1]
    rw [if_neg (fun hc => absurd (hlt.1 hc) (by omega)), h]
  · rw [h, Nat.add_sub_cancel] at hlt hpred
    rw [if_pos (hlt.2 (by omega)), hpred]

/-! ## Unsigned division -/

theorem toNat_shiftRight_32 (n : UInt64) : (n >>> 32).toUInt32.toNat = n.toNat / 2 ^ 32 := by
  rw [UInt64.toNat_toUInt32, UInt64.toNat_shiftRight, Nat.shiftRight_eq_div_pow]
  change n.toNat / 2 ^ 32 % 2 ^ 32 = _
  have := n.toNat_lt
  omega

/-- The divisor fits in 32 bits: schoolbook division with two digits. -/
theorem udiv64_short (hd : 0 < d.toNat) (hshort : d.toNat < 2 ^ 32) :
    ∃ q, udiv64 n d = some q ∧ q.toNat = n.toNat / d.toNat := by
  have hzero : d >>> 32 = 0 := by
    apply UInt64.toNat_inj.1
    rw [UInt64.toNat_shiftRight, Nat.shiftRight_eq_div_pow]
    exact Nat.div_eq_of_lt hshort
  obtain ⟨n1, hn1⟩ : ∃ n1, n1 = (n >>> 32).toUInt32 := ⟨_, rfl⟩
  obtain ⟨d0, hd0⟩ : ∃ d0, d0 = d.toUInt32 := ⟨_, rfl⟩
  have hn1n : n1.toNat = n.toNat / 2 ^ 32 := by rw [hn1, toNat_shiftRight_32]
  have hn0n : n.toUInt32.toNat = n.toNat % 2 ^ 32 := UInt64.toNat_toUInt32 n
  have hd0n : d0.toNat = d.toNat := by
    rw [hd0, UInt64.toNat_toUInt32, Nat.mod_eq_of_lt hshort]
  have hrem : n1.toNat % d0.toNat < d0.toNat := Nat.mod_lt _ (by omega)
  have hlow : ((1 : UInt64) <<< 32 * (n1 % d0).toUInt64 + n.toUInt32.toUInt64).toNat =
      2 ^ 32 * (n1.toNat % d0.toNat) + n.toNat % 2 ^ 32 := by
    rw [UInt64.toNat_add, UInt64.toNat_mul, UInt32.toNat_toUInt64, UInt32.toNat_toUInt64,
      UInt32.toNat_mod, hn0n]
    change (2 ^ 32 * _ % 2 ^ 64 + _) % 2 ^ 64 = _
    omega
  -- the digit carried over is below the divisor, so the lower quotient is one digit
  have hfit : (2 ^ 32 * (n1.toNat % d0.toNat) + n.toNat % 2 ^ 32) / d0.toNat < 2 ^ 32 := by
    refine (Nat.div_lt_iff_lt_mul (by omega)).2 ?_
    calc 2 ^ 32 * (n1.toNat % d0.toNat) + n.toNat % 2 ^ 32
        < 2 ^ 32 * (n1.toNat % d0.toNat) + 2 ^ 32 := by omega
      _ ≤ 2 ^ 32 * d0.toNat := by omega
  obtain ⟨q, hq, hqn⟩ := divl_eq (n := (1 : UInt64) <<< 32 * (n1 % d0).toUInt64 +
    n.toUInt32.toUInt64) (d := d0) (by omega) (by rw [hlow]; exact hfit)
  refine ⟨q.toUInt64 + (1 : UInt64) <<< 32 * (n1 / d0).toUInt64, ?_, ?_⟩
  · rw [udiv64, if_pos hzero]
    dsimp only
    rw [← hn1, ← hd0, hq]
    rfl
  · rw [hlow] at hqn
    have hsplit : n.toNat / d.toNat =
        (2 ^ 32 * (n1.toNat % d0.toNat) + n.toNat % 2 ^ 32) / d0.toNat +
          2 ^ 32 * (n1.toNat / d0.toNat) := by
      have hdm := Nat.div_add_mod n1.toNat d0.toNat
      rw [← hd0n, ← Nat.add_mul_div_left _ _ (by omega : 0 < d0.toNat)]
      congr 1
      have : d0.toNat * (2 ^ 32 * (n1.toNat / d0.toNat)) =
          2 ^ 32 * (d0.toNat * (n1.toNat / d0.toNat)) := by ring
      omega
    have hbig : n.toNat / d.toNat < 2 ^ 64 :=
      (Nat.div_le_self _ _).trans_lt n.toNat_lt
    rw [UInt64.toNat_add, UInt64.toNat_mul, UInt32.toNat_toUInt64, UInt32.toNat_toUInt64,
      UInt32.toNat_div, hqn]
    change (_ + 2 ^ 32 * _ % 2 ^ 64) % 2 ^ 64 = _
    omega

/-- The divisor has more than 32 bits: the estimate and its correction. -/
theorem udiv64_long (hlong : 2 ^ 32 ≤ d.toNat) :
    ∃ q, udiv64 n d = some q ∧ q.toNat = n.toNat / d.toNat := by
  have hnz : ¬ d >>> 32 = 0 := by
    intro h
    have h0 := congrArg UInt64.toNat h
    rw [UInt64.toNat_shiftRight, Nat.shiftRight_eq_div_pow] at h0
    change d.toNat / 2 ^ 32 = 0 at h0
    omega
  rw [udiv64, if_neg hnz]
  by_cases hnd : n < d
  · rw [if_pos hnd]
    refine ⟨0, rfl, ?_⟩
    rw [Nat.div_eq_of_lt (UInt64.lt_iff_toNat_lt.1 hnd)]
    rfl
  rw [if_neg hnd]
  have hdn : d.toNat ≤ n.toNat := by
    rw [UInt64.lt_iff_toNat_lt] at hnd
    omega
  have hd1 : (d >>> 32).toUInt32.toNat = d.toNat / 2 ^ 32 := toNat_shiftRight_32 d
  obtain ⟨hs, hs31, hs32⟩ := nlz_spec (x := (d >>> 32).toUInt32) (by omega)
  rw [hd1] at hs31 hs32
  dsimp only
  generalize nlz (d >>> 32).toUInt32 = s at *
  have hAC : 2 ^ s * 2 ^ (31 - s) = 2 ^ 31 := by
    rw [← pow_add]
    congr 1
    omega
  obtain ⟨hlo, hnorm⟩ := normalised_bounds (by omega) hs31 hs32
  have hv : ((d <<< UInt64.ofNat s) >>> 32).toUInt32.toNat = d.toNat * 2 ^ s / 2 ^ 32 := by
    rw [toNat_shiftRight_32, UInt64.toNat_shiftLeft, UInt64.toNat_ofNat',
      Nat.mod_eq_of_lt (by omega : s < 2 ^ 64), Nat.mod_eq_of_lt (by omega : s < 64),
      Nat.shiftLeft_eq, Nat.mod_eq_of_lt hnorm]
  have hhalf : (n >>> 1).toNat = n.toNat / 2 := by
    rfl
  obtain ⟨htrap, hest, hest1⟩ := estimate_bounds n.toNat_lt hdn hAC hlo hv
  obtain ⟨q, hq, hqn⟩ := divl_eq (n := n >>> 1) (d := ((d <<< UInt64.ofNat s) >>> 32).toUInt32)
    (by omega) (by rw [hhalf]; exact htrap)
  rw [hq]
  refine ⟨_, rfl, ?_⟩
  have hqs : (q >>> UInt32.ofNat (31 - s)).toUInt64.toNat =
      n.toNat / 2 / ((d <<< UInt64.ofNat s) >>> 32).toUInt32.toNat / 2 ^ (31 - s) := by
    rw [UInt32.toNat_toUInt64, UInt32.toNat_shiftRight, UInt32.toNat_ofNat',
      Nat.mod_eq_of_lt (by omega : 31 - s < 2 ^ 32), Nat.mod_eq_of_lt (by omega : 31 - s < 32),
      Nat.shiftRight_eq_div_pow, hqn, hhalf]
  rw [← hqs] at hest hest1
  exact corrected_eq (by omega) hdn hest hest1

/-- Unsigned division does not trap and is exact, for every nonzero divisor. -/
theorem udiv64_eq (hd : d ≠ 0) :
    ∃ q, udiv64 n d = some q ∧ q.toNat = n.toNat / d.toNat := by
  have hpos : 0 < d.toNat := by
    rcases Nat.eq_zero_or_pos d.toNat with h0 | h0
    · exact absurd (UInt64.toNat_inj.1 h0) hd
    · exact h0
  rcases Nat.lt_or_ge d.toNat (2 ^ 32) with h | h
  · exact udiv64_short hpos h
  · exact udiv64_long h

/-! ## Signed division -/

theorem toInt_eq_cond (n : Int64) : n.toInt =
    if 2 * n.toUInt64.toNat < 2 ^ 64 then (n.toUInt64.toNat : Int) else n.toUInt64.toNat - 2 ^ 64 :=
  BitVec.toInt_eq_toNat_cond n.toBitVec

/-- The magnitude that `sdiv64` divides. -/
theorem toNat_magnitude (n : Int64) :
    (if n ≥ 0 then n.toUInt64 else -n.toUInt64).toNat = n.toInt.natAbs := by
  have hn := toInt_eq_cond n
  have hlt : n.toUInt64.toNat < 2 ^ 64 := n.toUInt64.toNat_lt
  have hsign : n ≥ 0 ↔ 0 ≤ n.toInt := Int64.le_iff_toInt_le
  split_ifs with h
  · rw [hsign] at h
    split_ifs at hn <;> omega
  · rw [hsign] at h
    have hneg : (-n.toUInt64).toNat = (2 ^ 64 - n.toUInt64.toNat) % 2 ^ 64 := UInt64.toNat_neg _
    split_ifs at hn <;> omega

/-- Truncating division in terms of magnitudes. -/
theorem tdiv_eq_cond (a b : Int) : a.tdiv b =
    if (decide (a < 0)) = decide (b < 0) then ((a.natAbs / b.natAbs : Nat) : Int)
    else -((a.natAbs / b.natAbs : Nat) : Int) := by
  cases a with
  | ofNat m =>
    cases b with
    | ofNat k => rfl
    | negSucc k =>
      rw [if_neg (by simp [Int.negSucc_lt_zero])]
      rfl
  | negSucc m =>
    cases b with
    | ofNat k =>
      rw [if_neg (by simp [Int.negSucc_lt_zero])]
      rfl
    | negSucc k =>
      rw [if_pos (by simp [Int.negSucc_lt_zero])]
      rfl

/-- The quotient's magnitude read as a signed number, with the sign put on: the one value that does
not fit, `2 ^ 63`, is wanted with the minus sign only. -/
theorem toInt_signed {b : Prop} [Decidable b] (hq : q.toNat ≤ 2 ^ 63) (hb : b → q.toNat < 2 ^ 63) :
    (if b then q.toInt64 else -q.toInt64).toInt = if b then (q.toNat : Int) else -q.toNat := by
  have hcond : q.toInt64.toInt =
      if 2 * q.toNat < 2 ^ 64 then (q.toNat : Int) else q.toNat - 2 ^ 64 := toInt_eq_cond q.toInt64
  by_cases h : b
  · have := hb h
    rw [if_pos h, if_pos h, hcond, if_pos (by omega)]
  · rw [if_neg h, if_neg h, Int64.toInt_neg, hcond, Int.bmod_def]
    split_ifs <;> omega

/-- Signed division of every pair whose quotient is a 64-bit number. -/
theorem sdiv64_eq {n d : Int64} (hd : d ≠ 0) (hover : ¬ (n = Int64.minValue ∧ d = -1)) :
    ∃ q, sdiv64 n d = some q ∧ q.toInt = n.toInt.tdiv d.toInt := by
  have hd0 : d.toInt ≠ 0 := fun h => hd (Int64.toInt_inj.1 h)
  obtain ⟨a, ha⟩ : ∃ a, a = if n ≥ 0 then n.toUInt64 else -n.toUInt64 := ⟨_, rfl⟩
  obtain ⟨b, hb⟩ : ∃ b, b = if d ≥ 0 then d.toUInt64 else -d.toUInt64 := ⟨_, rfl⟩
  have han : a.toNat = n.toInt.natAbs := by rw [ha, toNat_magnitude]
  have hbn : b.toNat = d.toInt.natAbs := by rw [hb, toNat_magnitude]
  have hb0 : b ≠ 0 := by
    rintro rfl
    have : d.toInt.natAbs = 0 := hbn.symm
    omega
  obtain ⟨q, hq, hqn⟩ := udiv64_eq (n := a) hb0
  rw [han, hbn] at hqn
  refine ⟨if (decide (n < 0)) = decide (d < 0) then q.toInt64 else -q.toInt64, ?_, ?_⟩
  · rw [sdiv64, ← ha, ← hb, hq]
    rfl
  have hsn : n < 0 ↔ n.toInt < 0 := Int64.lt_iff_toInt_lt
  have hsd : d < 0 ↔ d.toInt < 0 := Int64.lt_iff_toInt_lt
  have hlo : -2 ^ 63 ≤ n.toInt := n.le_toInt
  have hhi : n.toInt < 2 ^ 63 := n.toInt_lt
  have hle : q.toNat ≤ n.toInt.natAbs := hqn ▸ Nat.div_le_self _ _
  rw [toInt_signed (by omega), tdiv_eq_cond, hqn]
  · simp only [hsn, hsd]
  · -- with equal signs the quotient is `2 ^ 63` for `INT64_MIN / -1` only
    intro hsame
    by_contra hbig
    have hn63 : n.toInt = -2 ^ 63 := by omega
    simp only [hsn, hsd, decide_eq_decide] at hsame
    have hd1 : d.toInt.natAbs = 1 := by
      by_contra h1
      have h2 : 2 ≤ d.toInt.natAbs := by omega
      have hhalf : n.toInt.natAbs / d.toInt.natAbs ≤ n.toInt.natAbs / 2 :=
        Nat.div_le_div_left h2 (by norm_num)
      omega
    have hdneg : d.toInt = -1 := by omega
    exact hover ⟨Int64.toInt_inj.1 hn63, Int64.toInt_inj.1 hdneg⟩

/-- 64-bit division is exact: the unsigned routine gives the floor of the quotient and traps for no
nonzero divisor, the signed one truncates toward zero wherever the quotient is representable. -/
theorem division_exact :
    (∀ n d : UInt64, d ≠ 0 → ∃ q, udiv64 n d = some q ∧ q.toNat = n.toNat / d.toNat) ∧
      ∀ n d : Int64, d ≠ 0 → ¬ (n = Int64.minValue ∧ d = -1) →
        ∃ q, sdiv64 n d = some q ∧ q.toInt = n.toInt.tdiv d.toInt :=
  ⟨fun _ _ hd => udiv64_eq hd, fun _ _ hd hover => sdiv64_eq hd hover⟩

/-- A divisor of 33 bits for which the estimate is one too large, and the least signed number
divided by one. -/
theorem division_exact_corrected :
    (∃ q, udiv64 0xFFFFFFFFFFFFFFFF 0x1FFFFFFFF = some q ∧
      q.toNat = 0xFFFFFFFFFFFFFFFF / 0x1FFFFFFFF) ∧
    ∃ q, sdiv64 Int64.minValue 1 = some q ∧ q.toInt = Int64.minValue.toInt.tdiv (1 : Int64).toInt :=
  ⟨division_exact.1 _ _ (by decide), division_exact.2 _ _ (by decide) (by decide)⟩

/-! ## Remainders -/

/-- The unsigned remainder loses the bits that do not fit in the return type of `umod64`. -/
theorem umoddi3_eq (hd : d ≠ 0) :
    ∃ r, umoddi3 n d = some r ∧ r.toNat = n.toNat % d.toNat % 2 ^ 32 := by
  obtain ⟨q, hq, hqn⟩ := udiv64_eq (n := n) hd
  have hdm := Nat.div_add_mod n.toNat d.toNat
  have hn : n.toNat < 2 ^ 64 := n.toNat_lt
  have hmul : (d * q).toNat = d.toNat * (n.toNat / d.toNat) := by
    rw [UInt64.toNat_mul, hqn, Nat.mod_eq_of_lt (by omega)]
  have hle : d * q ≤ n := UInt64.le_iff_toNat_le.2 (by omega)
  have hsub : (n - d * q).toNat = n.toNat % d.toNat := by
    rw [UInt64.toNat_sub_of_le _ _ hle, hmul]
    omega
  refine ⟨(n - d * q).toUInt32.toUInt64, ?_, ?_⟩
  · rw [umoddi3, umod64, hq]
    rfl
  · rw [UInt32.toNat_toUInt64, UInt64.toNat_toUInt32, hsub]

/-- The signed remainder is reduced to the return type of `smod64`. -/
theorem moddi3_eq {n d : Int64} (hd : d ≠ 0) (hover : ¬ (n = Int64.minValue ∧ d = -1)) :
    ∃ q r, divdi3 n d = some q ∧ q.toInt = n.toInt.tdiv d.toInt ∧ moddi3 n d = some r ∧
      r.toInt = (n.toInt.tmod d.toInt).bmod (2 ^ 32) := by
  obtain ⟨q, hq, hqn⟩ := sdiv64_eq hd hover
  refine ⟨q, (n - d * q).toInt32.toInt64, hq, hqn, ?_, ?_⟩
  · rw [moddi3, smod64, hq]
    rfl
  · -- the low 32 bits do not see that the difference is taken modulo `2 ^ 64`
    have hdvd : 2 ^ 32 ∣ 2 ^ 64 := Nat.pow_dvd_pow 2 (by decide)
    rw [Int32.toInt_toInt64, Int64.toInt_toInt32, Int64.toInt_sub, Int64.toInt_mul, hqn,
      Int.sub_bmod_bmod, Int.bmod_bmod_of_dvd hdvd, ← Int.tmod_def]

/-- A number is its own residue exactly when it is a signed 32-bit number. -/
theorem bmod_eq_self_iff {a : Int} : a.bmod (2 ^ 32) = a ↔ -2 ^ 31 ≤ a ∧ a < 2 ^ 31 := by
  rw [Int.bmod_def]
  split_ifs <;> omega

/-- A truncated remainder is zero or has the sign of the dividend. -/
theorem sign_tmod_eq (a b : Int) : a.tmod b = 0 ∨ (a.tmod b).sign = a.sign := by
  have hsign := Int.sign_tmod a b
  split_ifs at hsign with hdvd
  · exact Or.inl (Int.sign_eq_zero_iff_zero.1 hsign)
  · exact Or.inr hsign

/-- The remainders agree with division exactly when they fit in 32 bits: the helpers `umod64` and
`smod64` return a `uint32_t` and an `int32_t`. -/
theorem remainder_exact_iff (n d : UInt64) (hd : d ≠ 0) (m e : Int64) (he : e ≠ 0)
    (hover : ¬ (m = Int64.minValue ∧ e = -1)) :
    (∃ r, umoddi3 n d = some r ∧ (r.toNat = n.toNat % d.toNat ↔ n.toNat % d.toNat < 2 ^ 32)) ∧
    ∃ q r, divdi3 m e = some q ∧ moddi3 m e = some r ∧
      (r.toInt = m.toInt - e.toInt * q.toInt ∧ (r.toInt = 0 ∨ r.toInt.sign = m.toInt.sign) ∧
        r.toInt.natAbs < e.toInt.natAbs ↔
      -2 ^ 31 ≤ m.toInt.tmod e.toInt ∧ m.toInt.tmod e.toInt < 2 ^ 31) := by
  constructor
  · obtain ⟨r, hr, hrn⟩ := umoddi3_eq (n := n) hd
    refine ⟨r, hr, ?_⟩
    omega
  · obtain ⟨q, r, hq, hqn, hr, hrn⟩ := moddi3_eq he hover
    refine ⟨q, r, hq, hr, ?_⟩
    rw [hqn, ← Int.tmod_def, ← bmod_eq_self_iff, ← hrn]
    refine ⟨fun h => h.1, fun h => ⟨h, ?_, ?_⟩⟩
    · rw [h]
      exact sign_tmod_eq _ _
    · have he0 : e.toInt ≠ 0 := fun h0 => he (Int64.toInt_inj.1 h0)
      rw [h, Int.natAbs_tmod]
      exact Nat.mod_lt _ (Int.natAbs_pos.2 he0)

/-- Remainders of 32 bits, for a divisor of 33. -/
theorem remainder_exact_iff_fits :
    (∃ r, umoddi3 0xFFFFFFFFFFFFFFFF 0x1FFFFFFFF = some r ∧
      r.toNat = 0xFFFFFFFFFFFFFFFF % 0x1FFFFFFFF) ∧
    ∃ q r, divdi3 Int64.minValue 0x1FFFFFFFF = some q ∧ moddi3 Int64.minValue 0x1FFFFFFFF = some r ∧
      r.toInt = Int64.minValue.toInt - 0x1FFFFFFFF * q.toInt := by
  obtain ⟨⟨r, hr, hiff⟩, q, r', hq, hr', hiff'⟩ := remainder_exact_iff 0xFFFFFFFFFFFFFFFF
    0x1FFFFFFFF (by decide) Int64.minValue 0x1FFFFFFFF (by decide) (by decide)
  exact ⟨⟨r, hr, hiff.2 (by decide)⟩, q, r', hq, hr', (hiff'.2 (by decide)).1⟩

/-- A remainder that needs 33 bits becomes zero, and a positive one that needs 32 becomes
negative. -/
theorem remainder_truncated :
    umoddi3 0x100000000 0x200000000 = some 0 ∧
      moddi3 0x80000000 0x100000000 = some (-0x80000000) := by
  decide +kernel

end Pintos.LibC.Arithmetic
