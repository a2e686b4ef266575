import Mathlib.Tactic

/-!
# Timer calibration

`timer_calibrate` of `devices/timer.c` looks for the number of loops that fit into one timer tick.
It doubles a power of two while it still fits, and then tries the nine bits below it. The hardware
enters through `too_many_loops` alone, here a predicate on the number of loops; the results are
about a predicate with a threshold `T`.

The bits are tried one by one on top of the power of two, and not on top of the bits that have been
accepted: with `T = 2 ^ k + r` every bit that is at most `r` is set. `timer_calibrate_iff` says for
which thresholds this gives the ten leading bits of `T`: those in which a one is followed by zeros
and then by ones.
-/

set_option autoImplicit false

namespace Pintos.Devices.Timer

/-! ## The function -/

/-- The first loop, with `none` for a failed assertion. A word shifted 32 times is zero, so that the
assertion bounds the rounds. -/
def doubling (tooManyLoops : UInt32 → Bool) : Nat → UInt32 → Option UInt32
  | 0, _ => none
  | fuel + 1, loopsPerTick =>
    if tooManyLoops (loopsPerTick <<< 1) then some loopsPerTick
    else if loopsPerTick <<< 1 = 0 then none
    else doubling tooManyLoops fuel (loopsPerTick <<< 1)

/-- The second loop, with `none` when `test_bit` passes the last bit without meeting it. -/
def refinement (tooManyLoops : UInt32 → Bool) (highBit : UInt32) :
    Nat → UInt32 → UInt32 → Option UInt32
  | 0, _, _ => none
  | fuel + 1, testBit, loopsPerTick =>
    if testBit = highBit >>> 10 then some loopsPerTick
    else refinement tooManyLoops highBit fuel (testBit >>> 1)
      (if tooManyLoops (highBit ||| testBit) then loopsPerTick else loopsPerTick ||| testBit)

/-- `timer_calibrate`: the value of `loops_per_tick`. -/
def timerCalibrate (tooManyLoops : UInt32 → Bool) : Option UInt32 := do
  let highBit ← doubling tooManyLoops 32 ((1 : UInt32) <<< 10)
  refinement tooManyLoops highBit 32 (highBit >>> 1) highBit

/-! ## Words with one bit -/

/-- The word with bit `j`. -/
def bit (j : Nat) : UInt32 := UInt32.ofNat (2 ^ j)

variable {x : UInt32}

section Bits

variable {i j : Nat}

theorem toNat_bit (hj : j < 32) : (bit j).toNat = 2 ^ j := by
  rw [bit, UInt32.toNat_ofNat', Nat.mod_eq_of_lt (Nat.pow_lt_pow_right (by decide) hj)]

theorem bit_inj (hi : i < 32) (hj : j < 32) : bit i = bit j ↔ i = j := by
  rw [← UInt32.toNat_inj, toNat_bit hi, toNat_bit hj]
  exact Nat.pow_right_inj (by decide)

theorem bit_shiftLeft (hj : j + 1 < 32) : bit j <<< 1 = bit (j + 1) := by
  apply UInt32.toNat_inj.1
  rw [toNat_bit hj, UInt32.toNat_shiftLeft, toNat_bit (by omega), Nat.shiftLeft_eq]
  change 2 ^ j * 2 ^ 1 % 2 ^ 32 = _
  rw [← pow_add, Nat.mod_eq_of_lt (Nat.pow_lt_pow_right (by decide) hj)]

theorem bit_shiftRight (n : UInt32) (hj : j + n.toNat < 32) : bit (j + n.toNat) >>> n = bit j := by
  apply UInt32.toNat_inj.1
  rw [toNat_bit (by omega), UInt32.toNat_shiftRight, toNat_bit hj, Nat.shiftRight_eq_div_pow,
    Nat.mod_eq_of_lt (by omega : n.toNat < 32), pow_add, Nat.mul_div_cancel _ (by positivity)]

/-- Above the last bit of a word there is room for one more. -/
theorem toNat_or_bit (hi : i < 32) (hx : 2 ^ (i + 1) ∣ x.toNat) :
    (x ||| bit i).toNat = x.toNat + 2 ^ i := by
  obtain ⟨q, hq⟩ := hx
  rw [UInt32.toNat_or, toNat_bit hi, hq]
  exact (Nat.two_pow_add_eq_or_of_lt (Nat.pow_lt_pow_right (by decide) (Nat.lt_succ_self i)) q).symm

end Bits

/-! ## The loops against a threshold -/

section Threshold

variable {tooMany : UInt32 → Bool} {k r : Nat} {fuel i e : Nat}

/-- The first loop ends with the highest power of two that is not above the threshold. -/
theorem doubling_eq (h : ∀ n, tooMany n = true ↔ 2 ^ k + r < n.toNat) (hk : k < 31) (hr : r < 2 ^ k)
    {j : Nat} (hj : j ≤ k) (hfuel : k < j + fuel) :
    doubling tooMany fuel (bit j) = some (bit k) := by
  induction fuel generalizing j with
  | zero => omega
  | succ fuel ih =>
    have hnext : tooMany (bit (j + 1)) = true ↔ k < j + 1 := by
      rw [h, toNat_bit (by omega)]
      refine ⟨fun hlt => ?_, fun hlt => ?_⟩
      · exact (Nat.pow_lt_pow_iff_right (by decide)).1 ((Nat.le_add_right _ _).trans_lt hlt)
      · calc 2 ^ k + r < 2 ^ (k + 1) := by rw [pow_succ]; omega
          _ ≤ 2 ^ (j + 1) := Nat.pow_le_pow_right (by decide) hlt
    rw [doubling, bit_shiftLeft (by omega)]
    rcases hj.eq_or_lt with rfl | hlt
    · rw [if_pos (hnext.2 (Nat.lt_succ_self _))]
    · have hzero : bit (j + 1) ≠ 0 := by
        intro h0
        have hnat := congrArg UInt32.toNat h0
        rw [toNat_bit (by omega)] at hnat
        exact absurd hnat (by positivity)
      rw [if_neg (fun hc => absurd (hnext.1 hc) (by omega)), if_neg hzero]
      exact ih hlt (by omega)

theorem bit_half (hi : i + 1 < 32) : bit (i + 1) >>> 1 = bit i := bit_shiftRight 1 hi

/-- Where the second loop ends. -/
theorem shiftRight_ten (he : e + 10 = k) (hk : k < 31) : bit k >>> 10 = bit e := by
  have hlt : e + (10 : UInt32).toNat < 32 := by
    change e + 10 < 32
    omega
  rw [← he]
  exact bit_shiftRight 10 hlt

/-- One round of the second loop: the bit is set when it is at most `r`. -/
theorem refinement_succ (h : ∀ n, tooMany n = true ↔ 2 ^ k + r < n.toNat) (he : e + 10 = k)
    (hk : k < 31) (hei : e < i + 1) (hik : i + 1 < k) (x : UInt32) :
    refinement tooMany (bit k) (fuel + 1) (bit (i + 1)) x =
      refinement tooMany (bit k) fuel (bit i)
        (if 2 ^ (i + 1) ≤ r then x ||| bit (i + 1) else x) := by
  have hne : bit (i + 1) ≠ bit e :=
    fun heq => absurd ((bit_inj (by omega) (by omega)).1 heq) (by omega)
  have hsum : (bit k ||| bit (i + 1)).toNat = 2 ^ k + 2 ^ (i + 1) := by
    rw [toNat_or_bit (by omega), toNat_bit (by omega)]
    rw [toNat_bit (by omega)]
    exact Nat.pow_dvd_pow 2 (by omega)
  have htry : tooMany (bit k ||| bit (i + 1)) = true ↔ ¬ 2 ^ (i + 1) ≤ r := by
    rw [h, hsum]
    omega
  rw [refinement, shiftRight_ten he hk, if_neg hne, bit_half (by omega)]
  by_cases hle : 2 ^ (i + 1) ≤ r
  · rw [if_pos hle, if_neg (fun hc => htry.1 hc hle)]
  · rw [if_neg hle, if_pos (htry.2 hle)]

/-- The second loop ends at the tenth bit. -/
theorem refinement_last (he : e + 10 = k) (hk : k < 31) (fuel : Nat) (x : UInt32) :
    refinement tooMany (bit k) (fuel + 1) (bit e) x = some x := by
  rw [refinement, shiftRight_ten he hk, if_pos rfl]

section

variable (h : ∀ n, tooMany n = true ↔ 2 ^ k + r < n.toNat) (he : e + 10 = k) (hk : k < 31)
include h he hk

/-- From a bit that is at most `r` on, all bits are set. -/
theorem refinement_ones (hei : e ≤ i) (hik : i < k) (hfuel : i < e + fuel) (hi : 2 ^ i ≤ r)
    (hx : 2 ^ (i + 1) ∣ x.toNat) :
    ∃ y, refinement tooMany (bit k) fuel (bit i) x = some y ∧
      y.toNat + 2 ^ (e + 1) = x.toNat + 2 ^ (i + 1) := by
  induction fuel generalizing i x with
  | zero => omega
  | succ fuel ih =>
    rcases hei.eq_or_lt with rfl | hlt
    · exact ⟨x, refinement_last he hk fuel x, rfl⟩
    · obtain ⟨i, rfl⟩ : ∃ i', i = i' + 1 := ⟨i - 1, by omega⟩
      have hor := toNat_or_bit (by omega) hx
      obtain ⟨y, hy, hsum⟩ := ih (x := x ||| bit (i + 1)) (by omega) (by omega) (by omega)
        ((Nat.pow_le_pow_right (by decide) (Nat.le_succ i)).trans hi)
        (by
          rw [hor]
          exact dvd_add ((Nat.pow_dvd_pow 2 (by omega)).trans hx) (dvd_refl _))
      refine ⟨y, ?_, ?_⟩
      · rw [refinement_succ h he hk (by omega) hik, if_pos hi, hy]
      · omega

/-- The bits that are set are those from the highest bit of `r` down to the last. -/
theorem refinement_eq (hei : e ≤ i) (hik : i < k) (hfuel : i < e + fuel) (hi : r < 2 ^ (i + 1))
    (hx : 2 ^ (i + 1) ∣ x.toNat) :
    ∃ y, refinement tooMany (bit k) fuel (bit i) x = some y ∧
      (r < 2 ^ (e + 1) → y = x) ∧
      (2 ^ (e + 1) ≤ r → y.toNat + 2 ^ (e + 1) = x.toNat + 2 ^ (Nat.log 2 r + 1)) := by
  induction fuel generalizing i with
  | zero => omega
  | succ fuel ih =>
    rcases hei.eq_or_lt with rfl | hlt
    · exact ⟨x, refinement_last he hk fuel x, fun _ => rfl, fun hge => absurd hi (by omega)⟩
    · by_cases hset : 2 ^ i ≤ r
      · -- the highest bit of `r`
        have hlog : Nat.log 2 r = i := Nat.log_eq_of_pow_le_of_lt_pow hset hi
        obtain ⟨y, hy, hsum⟩ := refinement_ones h he hk hei hik hfuel hset hx
        refine ⟨y, hy, fun hlow => ?_, fun _ => by rw [hlog, hsum]⟩
        have : 2 ^ (e + 1) ≤ 2 ^ i := Nat.pow_le_pow_right (by decide) hlt
        omega
      · obtain ⟨i, rfl⟩ : ∃ i', i = i' + 1 := ⟨i - 1, by omega⟩
        obtain ⟨y, hy, hrest⟩ := ih (i := i) (by omega) (by omega) (by omega) (by omega)
          ((Nat.pow_dvd_pow 2 (by omega)).trans hx)
        refine ⟨y, ?_, hrest⟩
        rw [refinement_succ h he hk (by omega) hik, if_neg hset, hy]

/-- The value that the calibration arrives at. -/
theorem timerCalibrate_eq (hr : r < 2 ^ k) :
    ∃ y, timerCalibrate tooMany = some y ∧
      (r < 2 ^ (e + 1) → y.toNat = 2 ^ k) ∧
      (2 ^ (e + 1) ≤ r → y.toNat + 2 ^ (e + 1) = 2 ^ k + 2 ^ (Nat.log 2 r + 1)) := by
  obtain ⟨k, rfl⟩ : ∃ k', k = k' + 1 := ⟨k - 1, by omega⟩
  have hbit := toNat_bit (by omega : k + 1 < 32)
  obtain ⟨y, hy, hlow, hhigh⟩ := refinement_eq h he hk (x := bit (k + 1))
    (by omega : e ≤ k) (by omega) (by omega : k < e + 32) hr (by rw [hbit])
  refine ⟨y, ?_, fun hlt => by rw [hlow hlt, hbit], fun hge => by rw [hhigh hge, hbit]⟩
  have hfirst : doubling tooMany 32 ((1 : UInt32) <<< 10) = some (bit (k + 1)) :=
    doubling_eq (j := 10) h hk hr (by omega) (by omega)
  rw [timerCalibrate, hfirst]
  change refinement tooMany (bit (k + 1)) 32 (bit (k + 1) >>> 1) (bit (k + 1)) = some y
  rw [bit_half (by omega), hy]

end

end Threshold

/-! ## The leading bits -/

/-- With `r` between the last bit and the power of two, the ones from its highest bit down are at
most `r` exactly when `r` consists of ones down to the last bit. -/
theorem ones_le_iff {r w : Nat} (hw : 2 ^ w ≤ r) :
    2 ^ (Nat.log 2 r + 1) ≤ r + 2 ^ w ↔ ∃ m, r / 2 ^ w + 1 = 2 ^ m := by
  have hpos : 0 < 2 ^ w := by positivity
  have hr : r ≠ 0 := by omega
  have hlog : w ≤ Nat.log 2 r := (Nat.le_log_iff_pow_le (by decide) hr).2 hw
  have hlt : r < 2 ^ (Nat.log 2 r + 1) := Nat.lt_pow_succ_log_self (by decide) r
  have hdm := Nat.div_add_mod r (2 ^ w)
  refine ⟨fun hle => ⟨Nat.log 2 r + 1 - w, ?_⟩, ?_⟩
  · have hsplit : 2 ^ (Nat.log 2 r + 1) = 2 ^ w * 2 ^ (Nat.log 2 r + 1 - w) := by
      rw [← pow_add]
      congr 1
      omega
    have hbelow : r / 2 ^ w < 2 ^ (Nat.log 2 r + 1 - w) := by
      refine Nat.lt_of_mul_lt_mul_left (a := 2 ^ w) ?_
      omega
    have habove : 2 ^ (Nat.log 2 r + 1 - w) < r / 2 ^ w + 2 := by
      refine Nat.lt_of_mul_lt_mul_left (a := 2 ^ w) ?_
      rw [mul_add]
      omega
    omega
  · rintro ⟨m, hm⟩
    have hprod : 2 ^ (w + m) = 2 ^ w * (r / 2 ^ w) + 2 ^ w := by
      rw [pow_add, ← hm, mul_add, mul_one]
    have hm' : Nat.log 2 r < w + m := Nat.log_lt_of_lt_pow hr (by omega)
    calc 2 ^ (Nat.log 2 r + 1) ≤ 2 ^ (w + m) := Nat.pow_le_pow_right (by decide) hm'
      _ ≤ r + 2 ^ w := by omega

/-- A multiple of `P` that is at most `T`, by less than `P`, is `T` with the remainder left out. -/
theorem eq_div_mul {P L T : Nat} (hdvd : P ∣ L) (hle : L ≤ T) (hlt : T < L + P) :
    L = T / P * P := by
  obtain ⟨c, rfl⟩ := hdvd
  have hc : T / P = c := Nat.div_eq_of_lt_le (by rw [mul_comm]; exact hle)
    (by rw [mul_comm, mul_add, mul_one]; exact hlt)
  rw [hc, mul_comm]

/-- Calibration ends without a failed assertion. It does not overshoot, and finds the ten leading
bits of the threshold, exactly when these are a one, then zeros, then `m` ones. -/
theorem timer_calibrate_iff (tooMany : UInt32 → Bool) (T k : Nat)
    (h : ∀ n, tooMany n = true ↔ T < n.toNat) (hlo : 2 ^ 10 ≤ T) (hhi : T < 2 ^ 31) (hk : 2 ^ k ≤ T)
    (hk' : T < 2 ^ (k + 1)) :
    ∃ L, timerCalibrate tooMany = some L ∧
      (L.toNat ≤ T ∧ T < L.toNat + 2 ^ (k - 9) ∧ L.toNat = T / 2 ^ (k - 9) * 2 ^ (k - 9) ↔
        ∃ m, T / 2 ^ (k - 9) + 1 = 2 ^ 9 + 2 ^ m) := by
  have hk10 : 10 < k + 1 := (Nat.pow_lt_pow_iff_right (by decide : 1 < 2)).1 (hlo.trans_lt hk')
  have hk31 : k < 31 := (Nat.pow_lt_pow_iff_right (by decide : 1 < 2)).1 (hk.trans_lt hhi)
  obtain ⟨e, rfl⟩ : ∃ e, k = e + 10 := ⟨k - 10, by omega⟩
  obtain ⟨r, rfl⟩ : ∃ r, T = 2 ^ (e + 10) + r := ⟨T - 2 ^ (e + 10), by omega⟩
  have hr : r < 2 ^ (e + 10) := by
    omega
  obtain ⟨L, hL, hlow, hhigh⟩ := timerCalibrate_eq h rfl hk31 hr
  have hw : e + 10 - 9 = e + 1 := by omega
  have hpow : 2 ^ (e + 10) = 2 ^ (e + 1) * 2 ^ 9 := by rw [← pow_add]
  have hpos : 0 < 2 ^ (e + 1) := by positivity
  have hdiv : (2 ^ (e + 10) + r) / 2 ^ (e + 1) = 2 ^ 9 + r / 2 ^ (e + 1) := by
    rw [hpow, Nat.mul_add_div hpos]
  refine ⟨L, hL, ?_⟩
  rw [hw, hdiv]
  rcases Nat.lt_or_ge r (2 ^ (e + 1)) with hsmall | hbig
  · -- all bits below the highest are tried in vain
    rw [hlow hsmall, Nat.div_eq_of_lt hsmall]
    refine ⟨fun _ => ⟨0, rfl⟩, fun _ => ⟨by omega, by omega, ?_⟩⟩
    rw [hpow, mul_comm, add_zero (2 ^ 9)]
  · have hsum := hhigh hbig
    have hlog : r < 2 ^ (Nat.log 2 r + 1) := Nat.lt_pow_succ_log_self (by decide) r
    refine ⟨fun hle => ?_, fun hones => ?_⟩
    · obtain ⟨m, hm⟩ := (ones_le_iff hbig).1 (by omega)
      exact ⟨m, by omega⟩
    · obtain ⟨m, hm⟩ := hones
      have hle := (ones_le_iff hbig).2 ⟨m, by omega⟩
      have hdvd : 2 ^ (e + 1) ∣ L.toNat := by
        have hexp : e + 1 ≤ Nat.log 2 r := (Nat.le_log_iff_pow_le (by decide) (by omega)).2 hbig
        refine (Nat.dvd_add_left (dvd_refl _)).1 ?_
        rw [hsum]
        exact dvd_add (Nat.pow_dvd_pow 2 (by omega)) (Nat.pow_dvd_pow 2 (by omega))
      refine ⟨by omega, by omega, ?_⟩
      rw [← hdiv]
      exact eq_div_mul hdvd (by omega) (by omega)

/-- A threshold of twelve bits, `1 0 … 0 1 1 1` and two more. -/
theorem timer_calibrate_iff_ones :
    ∃ L, timerCalibrate (fun n => decide (2077 < n.toNat)) = some L ∧ L.toNat ≤ 2077 ∧
      2077 < L.toNat + 4 := by
  obtain ⟨L, hL, hiff⟩ := timer_calibrate_iff (fun n => decide (2077 < n.toNat)) 2077 11
    (fun n => decide_eq_true_iff) (by decide) (by decide) (by decide) (by decide)
  obtain ⟨hle, hlt, -⟩ := hiff.2 ⟨3, by decide⟩
  exact ⟨L, hL, hle, hlt⟩

/-- Two leading ones: every other bit is set as well, and the result is about a third above the
threshold. -/
theorem timer_calibrate_overshoots :
    timerCalibrate (fun n => decide (1536 < n.toNat)) = some 2046 := by
  decide +kernel

end Pintos.Devices.Timer
