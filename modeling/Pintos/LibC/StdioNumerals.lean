import Mathlib.Data.Nat.Digits.Lemmas
import Pintos.LibC.Stdio

/-!
# Numerals

What `format_integer` writes into its buffer. The digit loop produces the digits of the value from
the least significant one on, with separators in between when the `'` flag asks for them
(`separated`); a 64-bit number has at most 22 digits in a base of at least 8, so at most 44
characters, and the zeros that a precision asks for stop one character before the end of the buffer.
Without a precision the characters are the numeral of the value, in groups when there are separators
(`Grouped`).
-/

set_option autoImplicit false

namespace Pintos.LibC.StdioNumerals

open Lib.Emission LibC.Stdio List

/-- The bases that `__vprintf` uses. -/
def IsBase (b : IntegerBase) : Prop := b ∈ [baseD, baseO, baseLowerX, baseUpperX]

/-- The character for a digit. -/
def digitChar (b : IntegerBase) (d : Nat) : Char := b.digits.getD d '\x00'

/-- The digits of a value, least significant first. -/
def digitsOf (b : IntegerBase) (value : Nat) : List Char :=
  (Nat.digits b.base value).map (digitChar b)

/-- The numeral of a value. -/
def numeral (b : IntegerBase) (value : Nat) : List Char :=
  if value = 0 then ['0'] else (digitsOf b value).reverse

/-- Digits with separators: `n` digits come before. -/
def separated (group : Bool) (g : Nat) : Nat → List Char → List Char
  | _, [] => []
  | n, d :: ds =>
    if group && n > 0 && n % g = 0 then ',' :: d :: separated group g (n + 1) ds
    else d :: separated group g (n + 1) ds

/-- A numeral in groups of `g` digits: the first group may be shorter, and each of the others
follows a comma. -/
inductive Grouped (g : Nat) : List Char → List Char → Prop where
  | first {ds : List Char} : 0 < ds.length → ds.length ≤ g → Grouped g ds ds
  | more {text ds group : List Char} : Grouped g text ds → group.length = g →
      Grouped g (text ++ ',' :: group) (ds ++ group)

/-! ## Separators -/

section Separators

variable {group : Bool} {g : Nat}

theorem length_separated_le (n : Nat) (ds : List Char) :
    (separated group g n ds).length ≤ 2 * ds.length := by
  induction ds generalizing n with
  | nil => exact le_rfl
  | cons d ds ih =>
    have := ih (n + 1)
    rw [separated]
    split_ifs <;> simp only [length_cons] <;> omega

theorem separated_false (n : Nat) (ds : List Char) : separated false g n ds = ds := by
  induction ds generalizing n with
  | nil => rfl
  | cons d ds ih =>
    rw [separated, ih]
    rfl

theorem separated_append (n : Nat) (xs ys : List Char) :
    separated group g n (xs ++ ys) =
      separated group g n xs ++ separated group g (n + xs.length) ys := by
  induction xs generalizing n with
  | nil => rfl
  | cons d xs ih =>
    have hlen : n + (d :: xs).length = n + 1 + xs.length := by
      rw [length_cons]
      omega
    rw [cons_append, separated, separated, ih, hlen]
    split_ifs <;> rfl

/-- No separator comes before digit number `g`. -/
theorem separated_of_short {n : Nat} {ds : List Char} (h : n + ds.length ≤ g) :
    separated group g n ds = ds := by
  induction ds generalizing n with
  | nil => rfl
  | cons d ds ih =>
    rw [length_cons] at h
    have hno : ¬ (group && decide (n > 0) && decide (n % g = 0)) = true := by
      rw [Nat.mod_eq_of_lt (by omega)]
      simp only [Bool.and_eq_true, decide_eq_true_eq]
      omega
    rw [separated, if_neg hno, ih (by omega)]

/-- The separators depend on the number of digits before only up to `g`. -/
theorem separated_periodic {n m : Nat} (hn : 0 < n) (hm : 0 < m) (hmod : n % g = m % g)
    (ds : List Char) : separated group g n ds = separated group g m ds := by
  induction ds generalizing n m with
  | nil => rfl
  | cons d ds ih =>
    have hnext : (n + 1) % g = (m + 1) % g := Nat.ModEq.add_right 1 hmod
    rw [separated, separated, ih (Nat.succ_pos n) (Nat.succ_pos m) hnext, hmod]
    simp only [hn, hm]

/-- After a multiple of `g` digits there is a comma, and then it is as at the beginning. -/
theorem separated_of_dvd {n : Nat} (hn : 0 < n) (hmod : n % g = 0) {ds : List Char}
    (hds : ds ≠ []) : separated true g n ds = ',' :: separated true g 0 ds := by
  cases ds with
  | nil => exact absurd rfl hds
  | cons d ds =>
    have hnext : (n + 1) % g = (0 + 1) % g :=
      Nat.ModEq.add_right 1 (hmod.trans (Nat.zero_mod g).symm)
    have htail := @separated_periodic true g _ _ (Nat.succ_pos n) Nat.one_pos hnext ds
    have hyes : (true && decide (n > 0) && decide (n % g = 0)) = true := by simp [hn, hmod]
    have hno : ¬ (true && decide (0 > 0) && decide (0 % g = 0)) = true := by simp
    rw [separated, separated, if_pos hyes, if_neg hno, htail]

/-- Read from the most significant digit on, the digits stand in groups. -/
theorem grouped_separated (hg : 0 < g) {ds : List Char} (hds : ds ≠ []) :
    Grouped g (separated true g 0 ds).reverse ds.reverse := by
  induction h : ds.length using Nat.strong_induction_on generalizing ds with
  | _ n ih =>
    subst h
    have hpos : 0 < ds.length := length_pos_iff.2 hds
    by_cases hshort : ds.length ≤ g
    · rw [separated_of_short (by omega)]
      exact .first (by simpa using hpos) (by simpa using hshort)
    · -- the last group, and what comes before it
      obtain ⟨xs, ys, rfl, hlen⟩ : ∃ xs ys, ds = xs ++ ys ∧ xs.length = g :=
        ⟨ds.take g, ds.drop g, (take_append_drop g ds).symm, by
          rw [length_take]
          omega⟩
      have hys : ys ≠ [] := by
        rintro rfl
        rw [append_nil] at hshort
        omega
      have hrest := ih ys.length (by rw [length_append]; omega) hys rfl
      rw [separated_append, separated_of_short (by omega), zero_add, hlen,
        separated_of_dvd hg (Nat.mod_self g) hys, reverse_append, reverse_cons,
        append_assoc, reverse_append]
      exact .more hrest (by simpa using hlen)

end Separators

/-! ## The digit loop -/

section Buffer

variable {b : IntegerBase}

theorem IsBase.cases (h : IsBase b) : b = baseD ∨ b = baseO ∨ b = baseLowerX ∨ b = baseUpperX := by
  simpa only [IsBase, mem_cons, not_mem_nil, or_false] using h

theorem IsBase.base_ge (h : IsBase b) : 8 ≤ b.base := by
  rcases h.cases with rfl | rfl | rfl | rfl <;> decide

theorem IsBase.group_pos (h : IsBase b) : 0 < b.group := by
  rcases h.cases with rfl | rfl | rfl | rfl <;> decide

theorem push_of_lt {buf : List Char} {ch : Char} (h : buf.length < 64) :
    push buf ch = .ok (ch :: buf) := if_pos h

/-- The digit loop puts the digits before what is in the buffer. -/
theorem accumulateDigits_eq (hb : 2 ≤ b.base) {group : Bool} {fuel value digitCnt : Nat}
    {buf : List Char} (hfuel : (digitsOf b value).length < fuel)
    (hroom : (separated group b.group digitCnt (digitsOf b value)).length + buf.length ≤ 64) :
    accumulateDigits b group fuel value digitCnt buf =
      .ok ((separated group b.group digitCnt (digitsOf b value)).reverse ++ buf) := by
  induction fuel generalizing value digitCnt buf with
  | zero => omega
  | succ fuel ih =>
    rw [accumulateDigits]
    by_cases hv : value > 0
    · have hdigits : digitsOf b value =
          digitChar b (value % b.base) :: digitsOf b (value / b.base) := by
        rw [digitsOf, digitsOf, Nat.digits_def' hb hv, map_cons]
      rw [hdigits, length_cons] at hfuel
      rw [hdigits, separated] at hroom ⊢
      rw [if_pos hv]
      by_cases hsep : (group && decide (digitCnt > 0) && decide (digitCnt % b.group = 0)) = true
      · rw [if_pos hsep] at hroom ⊢
        simp only [length_cons] at hroom
        rw [if_pos hsep, push_of_lt (by omega)]
        change (push (',' :: buf) (digitChar b (value % b.base)) >>= _) = _
        rw [push_of_lt (by rw [length_cons]; omega)]
        refine (ih (by omega) (by simp only [length_cons]; omega)).trans ?_
        simp
      · rw [if_neg hsep] at hroom ⊢
        simp only [length_cons] at hroom
        rw [if_neg hsep]
        change (push buf (digitChar b (value % b.base)) >>= _) = _
        rw [push_of_lt (by omega)]
        refine (ih (by omega) (by simp only [length_cons]; omega)).trans ?_
        simp
    · obtain rfl : value = 0 := by omega
      simp [digitsOf, separated]

/-- A 64-bit number has at most 22 digits. -/
theorem length_digitsOf_le (hb : 8 ≤ b.base) {value : Nat} (hv : value < 2 ^ 64) :
    (digitsOf b value).length ≤ 22 := by
  rw [digitsOf, length_map, Nat.digits_length_le_iff (by omega)]
  calc value < 2 ^ 64 := hv
    _ ≤ 8 ^ 22 := by norm_num
    _ ≤ b.base ^ 22 := Nat.pow_le_pow_left hb 22

/-- Appending zeros stops one character before the end of the buffer. -/
theorem appendZeros_eq {precision : Int32} {fuel : Nat} {buf : List Char} (hlen : buf.length ≤ 63)
    (hfuel : 63 - buf.length < fuel) : ∃ k, appendZeros precision fuel buf =
      .ok (List.replicate k '0' ++ buf) ∧ k + buf.length ≤ 63 ∧
        (precision.toInt ≤ buf.length → k = 0) ∧ (precision = 1 → buf = [] → k = 1) := by
  induction fuel generalizing buf with
  | zero => omega
  | succ fuel ih =>
    rw [appendZeros]
    by_cases h : (buf.length : Int) < precision.toInt ∧ buf.length < 63
    · rw [if_pos h, push_of_lt (by omega)]
      obtain ⟨k, hk, hle, hstop, -⟩ := @ih ('0' :: buf) (by rw [length_cons]; omega)
        (by rw [length_cons]; omega)
      refine ⟨k + 1, ?_, ?_, ?_, ?_⟩
      · refine hk.trans ?_
        rw [replicate_succ', append_assoc]
        rfl
      · rw [length_cons] at hle
        omega
      · omega
      · rintro rfl rfl
        rw [hstop (by decide)]
    · rw [if_neg h]
      refine ⟨0, rfl, by omega, fun _ => rfl, ?_⟩
      rintro rfl rfl
      exact absurd (by decide) h

/-- Only the digit zero is written as `0`. -/
theorem digitChar_ne_zero (hb : IsBase b) : ∀ d < b.base, d ≠ 0 → digitChar b d ≠ '0' := by
  rcases hb.cases with rfl | rfl | rfl | rfl <;> decide

theorem getLast?_separated {group : Bool} {g n : Nat} (ds : List Char) :
    (separated group g n ds).getLast? = ds.getLast? := by
  induction ds generalizing n with
  | nil => rfl
  | cons d ds ih =>
    have hsep := @ih (n + 1)
    cases ds with
    | nil => rw [separated, separated]; split_ifs <;> rfl
    | cons e ds =>
      have hne : separated group g (n + 1) (e :: ds) ≠ [] := by
        rw [separated]
        split_ifs <;> exact cons_ne_nil _ _
      obtain ⟨x, xs, hx⟩ := exists_cons_of_ne_nil hne
      rw [separated, List.getLast?_cons_cons, ← hsep, hx]
      split_ifs
      · rw [List.getLast?_cons_cons, List.getLast?_cons_cons]
      · rw [List.getLast?_cons_cons]

/-- The most significant digit is not zero. -/
theorem head?_digits_ne (hb : IsBase b) {group : Bool} {value : Nat} (hv : value ≠ 0) :
    (separated group b.group 0 (digitsOf b value)).reverse.head? ≠ some '0' := by
  have hbase := hb.base_ge
  have hnil : Nat.digits b.base value ≠ [] := Nat.digits_ne_nil_iff_ne_zero.2 hv
  rw [List.head?_reverse, getLast?_separated, digitsOf, List.getLast?_map,
    List.getLast?_eq_some_getLast hnil, Option.map_some, Ne, Option.some.injEq]
  exact digitChar_ne_zero hb _ (Nat.digits_lt_base (by omega) (getLast_mem hnil))
    (Nat.getLast_digit_ne_zero b.base hv)

theorem toNat_eq_zero_iff (value : UInt64) : value.toNat = 0 ↔ value = 0 :=
  ⟨fun h => UInt64.toNat_inj.1 h, fun h => by rw [h]; rfl⟩

theorem separated_eq_nil_iff {group : Bool} {g n : Nat} {ds : List Char} :
    separated group g n ds = [] ↔ ds = [] := by
  rw [← List.getLast?_eq_none_iff, getLast?_separated, List.getLast?_eq_none_iff]

theorem digitsOf_eq_nil_iff {value : Nat} : digitsOf b value = [] ↔ value = 0 := by
  rw [digitsOf, map_eq_nil_iff, Nat.digits_eq_nil_iff_eq_zero]

/-- The buffer before the octal prefix: without a precision one zero is appended, for the value zero
only. -/
theorem digitBuffer_step (hb : IsBase b) (value : UInt64) (c : PrintfConversion) :
    ∃ k buf, buf = List.replicate k '0' ++
        (separated c.flags.group b.group 0 (digitsOf b value.toNat)).reverse ∧
      (digitBuffer value b c =
        if c.flags.pound ∧ b.base = 8 ∧ buf.head? ≠ some '0' then push buf '0' else .ok buf) ∧
      k + (separated c.flags.group b.group 0 (digitsOf b value.toNat)).length ≤ 63 ∧
      (c.precision < 0 → k = if value = 0 then 1 else 0) := by
  have hlen := length_digitsOf_le hb.base_ge value.toNat_lt
  have hsep := @length_separated_le c.flags.group b.group 0 (digitsOf b value.toNat)
  have hbase := hb.base_ge
  have hacc := @accumulateDigits_eq b (by omega) c.flags.group 65 value.toNat 0 [] (by omega)
    (by rw [length_nil]; omega)
  have hnil : separated c.flags.group b.group 0 (digitsOf b value.toNat) = [] ↔ value = 0 := by
    rw [separated_eq_nil_iff, digitsOf_eq_nil_iff, toNat_eq_zero_iff]
  generalize separated c.flags.group b.group 0 (digitsOf b value.toNat) = ds at *
  rw [append_nil] at hacc
  obtain ⟨precision, hp⟩ : ∃ p, p = if c.precision < 0 then 1 else c.precision := ⟨_, rfl⟩
  obtain ⟨k, hk, hle, hstop, hone⟩ := @appendZeros_eq precision 65 ds.reverse
    (by rw [length_reverse]; omega) (by rw [length_reverse]; omega)
  rw [length_reverse] at hle hstop
  refine ⟨k, _, rfl, ?_, hle, ?_⟩
  · rw [digitBuffer, hacc]
    change (appendZeros (if c.precision < 0 then 1 else c.precision) 65 ds.reverse >>= _) = _
    rw [← hp, hk]
    rfl
  · intro hneg
    rw [if_pos hneg] at hp
    split_ifs with hv
    · exact hone hp (by rw [hnil.2 hv]; rfl)
    · have hlt := length_pos_iff.2 fun h => hv (hnil.1 h)
      refine hstop ?_
      rw [hp]
      change (1 : Int) ≤ _
      omega

/-- What `format_integer` has in its buffer: zeros and the digits of the value. -/
theorem digitBuffer_eq (hb : IsBase b) (value : UInt64) (c : PrintfConversion) :
    ∃ zeros, digitBuffer value b c = .ok (List.replicate zeros '0' ++
        (separated c.flags.group b.group 0 (digitsOf b value.toNat)).reverse) ∧
      zeros + (separated c.flags.group b.group 0 (digitsOf b value.toNat)).length ≤ 64 ∧
      (c.precision < 0 → zeros = if value = 0 ∨ (c.flags.pound ∧ b.base = 8) then 1 else 0) := by
  obtain ⟨k, buf, hbuf, hdigits, hle, hk⟩ := digitBuffer_step hb value c
  rw [hdigits]
  by_cases hoct : c.flags.pound ∧ b.base = 8 ∧ buf.head? ≠ some '0'
  · have hlt : buf.length < 64 := by
      rw [hbuf, length_append, length_replicate, length_reverse]
      omega
    refine ⟨k + 1, ?_, by omega, ?_⟩
    · rw [if_pos hoct, push_of_lt hlt, hbuf]
      rfl
    · intro hneg
      have hv : value ≠ 0 := by
        intro hv
        rw [hbuf, hk hneg, if_pos hv] at hoct
        exact hoct.2.2 rfl
      rw [if_pos (Or.inr ⟨hoct.1, hoct.2.1⟩), hk hneg, if_neg hv]
  · refine ⟨k, by rw [if_neg hoct, hbuf], by omega, ?_⟩
    intro hneg
    rw [hk hneg]
    by_cases hv : value = 0
    · rw [if_pos hv, if_pos (Or.inl hv)]
    · have hno : ¬ (c.flags.pound ∧ b.base = 8) := by
        rintro ⟨h1, h2⟩
        refine hoct ⟨h1, h2, ?_⟩
        rw [hbuf, hk hneg, if_neg hv]
        exact head?_digits_ne hb fun h => hv ((toNat_eq_zero_iff value).1 h)
      rw [if_neg hv, if_neg fun h => h.elim hv hno]

end Buffer

/-! ## Canonical numerals -/

section Canonical

variable {b : IntegerBase}

/-- No digit is written as a comma. -/
theorem digitChar_ne_comma (hb : IsBase b) : ∀ d < b.base, digitChar b d ≠ ',' := by
  rcases hb.cases with rfl | rfl | rfl | rfl <;> decide

theorem filter_digitsOf (hb : IsBase b) (value : Nat) :
    (digitsOf b value).filter (· ≠ ',') = digitsOf b value := by
  have hbase := hb.base_ge
  refine filter_eq_self.2 fun ch hch => ?_
  obtain ⟨d, hd, rfl⟩ := mem_map.1 hch
  exact decide_eq_true (digitChar_ne_comma hb d (Nat.digits_lt_base (by omega) hd))

theorem filter_separated {group : Bool} {g n : Nat} (ds : List Char) :
    (separated group g n ds).filter (· ≠ ',') = ds.filter (· ≠ ',') := by
  induction ds generalizing n with
  | nil => rfl
  | cons d ds ih =>
    rw [separated]
    split_ifs
    · rw [filter_cons, filter_cons, filter_cons, ih]
      rfl
    · rw [filter_cons, filter_cons, ih]

/-- The digit part of a conversion without a precision: an octal prefix `0` where the `#` flag asks
for one and the numeral does not begin with `0` anyway, then the numeral, with commas between its
groups if the `'` flag is given. -/
def Canonical (value : UInt64) (b : IntegerBase) (f : Flags) (buf : List Char) : Prop :=
  ∃ text, buf = (if f.pound ∧ b.base = 8 ∧ value ≠ 0 then ['0'] else []) ++ text ∧
    text.filter (· ≠ ',') = numeral b value.toNat ∧
    if f.group then Grouped b.group text (numeral b value.toNat) else text = numeral b value.toNat

theorem canonical_of_zero {b : IntegerBase} (hb : IsBase b) (f : Flags) :
    Canonical 0 b f ['0'] := by
  have hnumeral : numeral b (0 : UInt64).toNat = ['0'] := rfl
  refine ⟨['0'], ?_, ?_, ?_⟩
  · rw [if_neg fun h => h.2.2 rfl]
    rfl
  · rfl
  · split_ifs
    · exact .first one_pos hb.group_pos
    · rfl

theorem canonical_of_ne {value : UInt64} (hb : IsBase b) (hv : value ≠ 0) (f : Flags) :
    Canonical value b f (List.replicate (if f.pound ∧ b.base = 8 then 1 else 0) '0' ++
      (separated f.group b.group 0 (digitsOf b value.toNat)).reverse) := by
  have hnumeral : numeral b value.toNat = (digitsOf b value.toNat).reverse :=
    if_neg fun h => hv ((toNat_eq_zero_iff value).1 h)
  have hnil : digitsOf b value.toNat ≠ [] := fun h =>
    hv ((toNat_eq_zero_iff value).1 (digitsOf_eq_nil_iff.1 h))
  refine ⟨(separated f.group b.group 0 (digitsOf b value.toNat)).reverse, ?_, ?_, ?_⟩
  · by_cases hoct : f.pound = true ∧ b.base = 8
    · rw [if_pos hoct, if_pos ⟨hoct.1, hoct.2, hv⟩]
      rfl
    · rw [if_neg hoct, if_neg fun h => hoct ⟨h.1, h.2.1⟩]
      rfl
  · rw [filter_reverse, filter_separated, filter_digitsOf hb, hnumeral]
  · rw [hnumeral]
    cases f.group with
    | true => exact grouped_separated hb.group_pos hnil
    | false =>
      rw [separated_false]
      rfl

/-- For every value, base, set of flags and precision, `format_integer` stays inside its buffer; and
without a precision its digit part is canonical. -/
theorem format_integer_canonical (value : UInt64) (b : IntegerBase) (hb : IsBase b)
    (c : PrintfConversion) :
    ∃ buf, digitBuffer value b c = .ok buf ∧ buf.length ≤ 64 ∧
      (∀ isSigned negative, Emits (fun _ output => formatInteger output value isSigned negative b c)
        (integerText c (signChar isSigned negative c.flags) (xChar value b c.flags) buf) (.ok ())) ∧
      (c.precision < 0 → Canonical value b c.flags buf) := by
  obtain ⟨zeros, hbuf, hlen, hcanon⟩ := digitBuffer_eq hb value c
  refine ⟨_, hbuf, ?_, emits_formatInteger hbuf, ?_⟩
  · rw [length_append, length_replicate, length_reverse]
    exact hlen
  · intro hneg
    rw [hcanon hneg]
    by_cases hv : value = 0
    · subst hv
      have hnil : digitsOf b (0 : UInt64).toNat = [] := digitsOf_eq_nil_iff.2 rfl
      rw [if_pos (Or.inl rfl), hnil]
      exact canonical_of_zero hb c.flags
    · have hiff : (value = 0 ∨ (c.flags.pound = true ∧ b.base = 8)) ↔
          (c.flags.pound = true ∧ b.base = 8) := or_iff_right hv
      simp only [hiff]
      exact canonical_of_ne hb hv c.flags

/-- The longest numeral: 22 octal digits and seven commas, with the `#` flag and a precision that
fills the buffer. -/
theorem format_integer_canonical_longest :
    ∃ buf, digitBuffer 0xFFFFFFFFFFFFFFFF baseO
      ⟨{ pound := true, group := true }, 0, 2147483647, .int⟩ = .ok buf ∧ buf.length ≤ 64 := by
  obtain ⟨buf, hbuf, hlen, -⟩ := format_integer_canonical 0xFFFFFFFFFFFFFFFF baseO (by
    simp [IsBase]) ⟨{ pound := true, group := true }, 0, 2147483647, .int⟩
  exact ⟨buf, hbuf, hlen⟩

end Canonical

end Pintos.LibC.StdioNumerals
