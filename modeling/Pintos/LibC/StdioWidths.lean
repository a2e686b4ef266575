import Pintos.LibC.StdioValues

/-!
# Field widths

The effect of a field width on what a conversion emits. `Widened` is the law that a width is meant
to obey: the text of the conversion without the width is filled up to the width, with blanks on one
side or with zeros after the sign and the prefix of the base. `format_integer` and `format_string`
obey it for all flags, widths and precisions in digits, but for a string whose length is a negative
`int`, which is filled by more than the width (`Overlong`). A width that is given as `*` is not read
from the arguments, so the law has no chance there (`field_width_star`).
-/

set_option autoImplicit false

namespace Pintos.LibC.StdioWidths

open Lib.Emission Lib.MachineIntegers LibC.Stdio StdioNumerals List
open StdioFormats StdioSpecs StdioValues

/-! ## The width of a conversion -/

/-- The number that a list of digits denotes. -/
def decimal (ds : List Char) : Nat := ds.foldl (fun n ch => n * 10 + (ch.toNat - 48)) 0

/-- The same conversion without its width. -/
def noWidth (spec : Spec) : Spec :=
  { spec with
    width := []
    isDigit_width := isDigit_nil
    width_ne_zero := head?_nil_ne }

/-- A round of the loop over digits. -/
theorem ofNat_step {ch : Char} (hch : ch.isDigit) (k : Nat) :
    Int32.ofNat k * 10 + Int32.ofNat ch.toNat - 48 = Int32.ofNat (k * 10 + (ch.toNat - 48)) := by
  have hle : 48 ≤ ch.toNat := by
    simp only [Char.isDigit, ge_iff_le, UInt32.le_iff_toNat_le, Bool.and_eq_true,
      decide_eq_true_eq] at hch
    exact hch.1
  obtain ⟨m, hm⟩ := Nat.exists_eq_add_of_le hle
  have h48 : Int32.ofNat 48 = 48 := rfl
  have h10 : Int32.ofNat 10 = 10 := rfl
  rw [hm, Nat.add_sub_cancel_left, Int32.ofNat_add, Int32.ofNat_add, Int32.ofNat_mul, h48, h10]
  grind

/-- The loop over digits computes their number, modulo the size of an `int`. -/
theorem parseDigits_ofNat {ds : List Char} (hds : ∀ ch ∈ ds, ch.isDigit) (k : Nat) :
    (parseDigits ds (Int32.ofNat k)).1 =
      Int32.ofNat (ds.foldl (fun n ch => n * 10 + (ch.toNat - 48)) k) := by
  induction ds generalizing k with
  | nil => rfl
  | cons ch ds ih =>
    have hch := hds ch mem_cons_self
    rw [parseDigits, if_pos hch, ofNat_step hch]
    exact ih (fun ch' h' => hds ch' (mem_cons_of_mem _ h')) _

/-- The width that `parse_conversion` reads is the one that is written. -/
theorem toInt_digits {ds : List Char} (hds : ∀ ch ∈ ds, ch.isDigit) (h : decimal ds < 2 ^ 31) :
    (parseDigits ds 0).1.toInt = decimal ds := by
  have hvalue : (parseDigits ds 0).1 = Int32.ofNat (decimal ds) := parseDigits_ofNat hds 0
  rw [hvalue]
  exact Int32.toInt_ofNat_of_lt h

/-! ## The conversion without its width -/

section NoWidth

variable {spec : Spec}

theorem noWidth_conversion : (noWidth spec).conversion = spec.conversion := rfl

theorem noWidth_width : (noWidth spec).parsed.width = 0 := rfl

theorem noWidth_precision : spec.parsed.precision = (noWidth spec).parsed.precision := rfl

theorem width_not_neg (h : decimal spec.width < 2 ^ 31) : ¬ (parseDigits spec.width 0).1 < 0 := by
  rw [Int32.lt_iff_toInt_lt, toInt_digits spec.isDigit_width h]
  exact Int.not_lt.mpr (Int.natCast_nonneg _)

theorem toInt_parsed_width (h : decimal spec.width < 2 ^ 31) :
    spec.parsed.width.toInt = decimal spec.width := by
  simp only [Spec.parsed, if_neg (width_not_neg h)]
  exact toInt_digits spec.isDigit_width h

/-- A width changes no flag. -/
theorem parsed_flags (h : decimal spec.width < 2 ^ 31) :
    spec.parsed.flags = (noWidth spec).parsed.flags := by
  simp only [Spec.parsed, if_neg (width_not_neg h)]
  rfl

/-- The flags `-` and `0` are not in force together. -/
theorem not_minus_and_zero (h : decimal spec.width < 2 ^ 31) :
    ¬ (spec.parsed.flags.minus = true ∧ spec.parsed.flags.zero = true) := by
  simp only [Spec.parsed, if_neg (width_not_neg h), normalise]
  split_ifs
  · exact fun hboth => hboth.2
  · cases spec.written.minus <;> simp

end NoWidth

/-! ## The law -/

/-- The text `bare` of a conversion without a width is filled up to the width `n`: with blanks on
one side, or in an integer conversion with zeros between the sign and the prefix of the base and the
digits. -/
def Widened (ch : Char) (n : Nat) (bare text : List Char) : Prop :=
  text.length = max n bare.length ∧ ∃ pad,
    text = List.replicate pad ' ' ++ bare ∨ text = bare ++ List.replicate pad ' ' ∨
    (IsInteger ch ∧ ∃ (sign : Option Char) (front body : List Char),
      (∀ x ∈ sign, x ∈ ['-', '+', ' ']) ∧ (front = [] ∨ ∃ x ∈ (baseOf ch).x, front = ['0', x]) ∧
      (∀ x ∈ body, x ∈ (baseOf ch).digits ∨ x = ',') ∧ bare = sign.toList ++ (front ++ body) ∧
      text = sign.toList ++ (front ++ (List.replicate pad '0' ++ body)))

section Law

variable {ch : Char} {n : Nat} {bare : List Char}

theorem widened_left : Widened ch n bare (List.replicate (n - bare.length) ' ' ++ bare) := by
  refine ⟨?_, _, .inl rfl⟩
  rw [length_append, length_replicate]
  omega

theorem widened_right : Widened ch n bare (bare ++ List.replicate (n - bare.length) ' ') := by
  refine ⟨?_, _, .inr (.inl rfl)⟩
  rw [length_append, length_replicate]
  omega

/-- A text that is long enough is not changed. -/
theorem widened_self (h : n ≤ bare.length) : Widened ch n bare bare :=
  ⟨(max_eq_right h).symm, 0, .inl rfl⟩

end Law

/-! ## Integers -/

section Integers

variable {b : IntegerBase} {c c' : PrintfConversion} {sign x : Option Char} {buf : List Char}

/-- The prefix of the base. -/
def frontOf (x : Option Char) : List Char := (if x.isSome then ['0'] else []) ++ x.toList

/-- The text of an integer conversion without padding. -/
def bareText (sign x : Option Char) (buf : List Char) : List Char :=
  sign.toList ++ (frontOf x ++ buf)

theorem length_bareText : (bareText sign x buf).length =
    (if sign.isSome then 1 else 0) + ((if x.isSome then 2 else 0) + buf.length) := by
  rw [bareText, frontOf, length_append, length_append]
  congr 1
  · cases sign <;> rfl
  · cases x <;> rfl

/-- The padding fills the field. -/
theorem padCnt_eq {n : Nat} (hwidth : c.width.toInt = n) (hbuf : buf.length ≤ 64)
    (sign x : Option Char) :
    padCnt c.width buf.length x sign = n - (bareText sign x buf).length := by
  have hlt := c.width.toInt_lt
  rw [length_bareText, padCnt, hwidth, Int.bmod_eq_of_le]
  all_goals
    split_ifs <;> omega

/-- `format_integer` with its padding. -/
theorem integerText_eq (c : PrintfConversion) (sign x : Option Char) (buf : List Char) :
    integerText c sign x buf =
      List.replicate
          (if !c.flags.minus && !c.flags.zero then padCnt c.width buf.length x sign else 0) ' ' ++
        (sign.toList ++ (frontOf x ++ (List.replicate
            (if c.flags.zero then padCnt c.width buf.length x sign else 0) '0' ++ buf)) ++
          List.replicate (if c.flags.minus then padCnt c.width buf.length x sign else 0) ' ') := by
  unfold integerText frontOf
  cases c.flags.minus <;> cases c.flags.zero <;> simp [append_assoc]

/-- The padding is on one side. -/
theorem integerText_widened {ch : Char} (hch : IsInteger ch) {n : Nat}
    (hwidth : c.width.toInt = n) (hflags : ¬ (c.flags.minus = true ∧ c.flags.zero = true))
    (hbuf : buf.length ≤ 64) (hsign : ∀ y ∈ sign, y ∈ ['-', '+', ' '])
    (hx : ∀ y ∈ x, y ∈ (baseOf ch).x)
    (hdigits : ∀ y ∈ buf, y ∈ (baseOf ch).digits ∨ y = ',') :
    Widened ch n (bareText sign x buf) (integerText c sign x buf) := by
  have hfront : frontOf x = [] ∨ ∃ y ∈ (baseOf ch).x, frontOf x = ['0', y] := by
    cases x with
    | none => exact .inl rfl
    | some y => exact .inr ⟨y, hx y rfl, rfl⟩
  rw [integerText_eq, padCnt_eq hwidth hbuf]
  cases hminus : c.flags.minus <;> cases hzero : c.flags.zero
  · -- blanks on the left
    simp only [Bool.not_false, Bool.and_self, if_true, Bool.false_eq_true, if_false,
      replicate_zero, append_nil, nil_append]
    exact widened_left
  · -- zeros after the sign and the prefix
    simp only [Bool.not_true, Bool.and_false, Bool.false_eq_true, if_false, if_true,
      replicate_zero, append_nil, nil_append]
    refine ⟨?_, _, .inr (.inr ⟨hch, sign, frontOf x, buf, hsign, hfront, hdigits, rfl, rfl⟩)⟩
    simp only [bareText, length_append, length_replicate]
    omega
  · -- blanks on the right
    exact widened_right
  · exact absurd ⟨hminus, hzero⟩ hflags

/-- The buffer of `format_integer` does not depend on the width. -/
theorem bufferOf_congr (hflags : c.flags = c'.flags) (hprec : c.precision = c'.precision)
    (value : UInt64) (b : IntegerBase) : bufferOf value b c = bufferOf value b c' := by
  simp only [bufferOf, digitBuffer, hflags, hprec]

theorem length_bufferOf_le (hb : IsBase b) (value : UInt64) (c : PrintfConversion) :
    (bufferOf value b c).length ≤ 64 := by
  obtain ⟨zeros, -, hlen, -⟩ := bufferOf_eq hb value c
  exact hlen

/-- What is emitted without a width. -/
theorem integerOut_bare (hflags : c.flags = c'.flags) (hprec : c.precision = c'.precision)
    (hwidth : c'.width = 0) (hb : IsBase b) (value : UInt64) (isSigned negative : Bool) :
    integerOut value isSigned negative b c' = bareText (signChar isSigned negative c.flags)
      (xChar value b c.flags) (bufferOf value b c) := by
  have hzero : c'.width.toInt = (0 : Nat) := by rw [hwidth]; rfl
  rw [integerOut, integerText_eq, bufferOf_congr hflags hprec,
    padCnt_eq hzero (length_bufferOf_le hb value c'), Nat.zero_sub, ite_self, ite_self, ite_self,
    replicate_zero, replicate_zero, append_nil, hflags]
  rfl

/-- The law for the two functions that print an integer. -/
theorem integerOut_widened {ch : Char} (hch : IsInteger ch) {n : Nat} (hwidth : c.width.toInt = n)
    (hone : ¬ (c.flags.minus = true ∧ c.flags.zero = true)) (hflags : c.flags = c'.flags)
    (hprec : c.precision = c'.precision) (hwidth' : c'.width = 0) (value : UInt64)
    (isSigned negative : Bool) :
    Widened ch n (integerOut value isSigned negative (baseOf ch) c')
      (integerOut value isSigned negative (baseOf ch) c) := by
  have hb := isBase_baseOf ch
  rw [integerOut_bare hflags hprec hwidth' hb]
  exact integerText_widened hch hwidth hone (length_bufferOf_le hb value c)
    (signChar_mem isSigned negative c.flags) (xChar_mem value (baseOf ch) c.flags)
    (mem_bufferOf hb value c)

end Integers

/-! ## Characters and strings -/

section Strings

variable {c c' : PrintfConversion} {length : Int32}

/-- An `int` as a `size_t`. -/
theorem toInt_eq_sizeT (n : Int32) :
    n.toInt = if sizeT n < 2 ^ 63 then (sizeT n : Int) else sizeT n - 2 ^ 64 :=
  toInt_eq_widened n

theorem sizeT_lt (n : Int32) : sizeT n < 2 ^ 64 := n.toInt64.toUInt64.toNat_lt

/-- The padding of a string fills the field. -/
theorem sizeT_pad {n : Nat} (hwidth : c.width.toInt = n) (hlength : 0 ≤ length.toInt)
    (h : length < c.width) : sizeT (c.width - length) = n - length.toInt.toNat := by
  have hlt := c.width.toInt_lt
  have hsize := toInt_eq_sizeT (c.width - length)
  rw [Int32.lt_iff_toInt_lt, hwidth] at h
  rw [Int32.toInt_sub, hwidth, Int.bmod_eq_of_le (by omega) (by omega)] at hsize
  have := sizeT_lt (c.width - length)
  split_ifs at hsize <;> omega

theorem stringText_bare (hlength : 0 ≤ length.toInt) (hwidth' : c'.width = 0)
    (string : Nat → Char) :
    stringText string length c' = (List.range length.toInt.toNat).map string := by
  have hno : ¬ c'.width > length := by
    rw [hwidth', gt_iff_lt, Int32.lt_iff_toInt_lt]
    exact Int.not_lt.mpr hlength
  simp only [stringText, hno, decide_false, Bool.false_and, Bool.false_eq_true, if_false,
    nil_append, append_nil]

/-- The law for a string whose length is not negative. -/
theorem stringText_widened {ch : Char} {n : Nat} (hwidth : c.width.toInt = n)
    (hwidth' : c'.width = 0) (hlength : 0 ≤ length.toInt) (string : Nat → Char) :
    Widened ch n (stringText string length c') (stringText string length c) := by
  have hlen : ((List.range length.toInt.toNat).map string).length = length.toInt.toNat := by
    rw [length_map, length_range]
  rw [stringText_bare hlength hwidth']
  by_cases h : length < c.width
  · have hpad := sizeT_pad hwidth hlength h
    rw [← hlen] at hpad
    rw [stringText, hpad]
    cases hminus : c.flags.minus with
    | false =>
      simp only [gt_iff_lt, h, decide_true, Bool.not_false, Bool.and_self, if_true, Bool.and_false,
        Bool.false_eq_true, if_false, append_nil]
      exact widened_left
    | true =>
      simp only [gt_iff_lt, h, decide_true, Bool.not_true, Bool.and_self, if_true, Bool.and_false,
        Bool.false_eq_true, if_false, nil_append]
      exact widened_right
  · have hle : n ≤ length.toInt.toNat := by
      rw [Int32.lt_iff_toInt_lt, hwidth] at h
      omega
    simp only [stringText, gt_iff_lt, h, decide_false, Bool.false_and, Bool.false_eq_true, if_false,
      nil_append, append_nil]
    exact widened_self (by rw [hlen]; exact hle)

/-- A string whose length is a negative `int` is nothing but padding. -/
theorem stringText_negative (hwidth : 0 ≤ c.width.toInt) (hlength : length.toInt < 0)
    (string : Nat → Char) :
    stringText string length c = List.replicate (sizeT (c.width - length)) ' ' := by
  have h : length < c.width := by
    rw [Int32.lt_iff_toInt_lt]
    omega
  have hnone : length.toInt.toNat = 0 := Int.toNat_of_nonpos (by omega)
  rw [stringText, hnone]
  cases c.flags.minus <;> simp [h]

/-- The padding for a negative length, also when the difference leaves the range of `int`. -/
theorem sizeT_pad_negative {n : Nat} (hwidth : c.width.toInt = n) (hlength : length.toInt < 0) :
    sizeT (c.width - length) = n + (-length.toInt).toNat ∧ n + (-length.toInt).toNat < 2 ^ 31 ∨
      sizeT (c.width - length) = n + (-length.toInt).toNat + (2 ^ 64 - 2 ^ 32) ∧
        2 ^ 31 ≤ n + (-length.toInt).toNat := by
  have hlt := c.width.toInt_lt
  have hge := length.le_toInt
  have hsize := toInt_eq_sizeT (c.width - length)
  have hbound := sizeT_lt (c.width - length)
  rw [Int32.toInt_sub, hwidth, Int.bmod_def] at hsize
  split_ifs at hsize <;> omega

/-- The law for strings and characters. -/
theorem stringText_widened_iff {ch : Char} {n : Nat} (hwidth : c.width.toInt = n)
    (hwidth' : c'.width = 0) (string : Nat → Char) :
    Widened ch n (stringText string length c') (stringText string length c) ↔
      ¬ (length < 0 ∧ 0 < n) := by
  have hneg : length < 0 ↔ length.toInt < 0 := Int32.lt_iff_toInt_lt
  by_cases hlength : length.toInt < 0
  · have hzero : c'.width.toInt = 0 := by rw [hwidth']; rfl
    rw [stringText_negative (by omega) hlength, stringText_negative (by omega) hlength, hneg]
    constructor
    · rintro ⟨hlen, -⟩ ⟨-, hpos⟩
      have hpad := sizeT_pad_negative hwidth hlength
      have hpad' := sizeT_pad_negative (n := 0) hzero hlength
      rw [length_replicate, length_replicate] at hlen
      omega
    · intro hnot
      have hn : n = 0 := by omega
      have heq : c.width = c'.width := Int32.toInt_inj.mp (by omega)
      rw [heq, hn]
      exact widened_self (Nat.zero_le _)
  · exact iff_of_true (stringText_widened hwidth hwidth' (by omega) string) (by rw [hneg]; omega)

end Strings

/-! ## All conversions -/

/-- The length of a string, taken as an `int`, is negative. -/
def Overlong (spec : Spec) (mem : Memory) (args : VaList) : Prop :=
  spec.conversion = 's' ∧ Int32.ofNat (strnlen (stringArg mem (args 0))
    (sizeT (precisionValue spec.precision))) < 0 ∧ 0 < decimal spec.width

section Conversions

variable {spec : Spec} {mem : Memory} {args : VaList}

/-- The law for integers. -/
theorem output_widened_of_integer (h : decimal spec.width < 2 ^ 31)
    (hch : IsInteger spec.conversion) :
    Widened spec.conversion (decimal spec.width) ((noWidth spec).output mem args)
      (spec.output mem args) := by
  have hlaw := integerOut_widened hch (toInt_parsed_width h) (not_minus_and_zero h) (parsed_flags h)
    noWidth_precision noWidth_width
  rw [Spec.output, Spec.output]
  cases hsigned : isSignedConversion spec.conversion with
  | true =>
    have hbase : baseOf spec.conversion = baseD := if_pos hsigned
    rw [conversionText_signed hsigned, noWidth_conversion, conversionText_signed hsigned]
    rw [hbase] at hlaw
    exact hlaw (magnitude (signedArg spec.modifier (args 0))) true
      (signedArg spec.modifier (args 0) < 0)
  | false =>
    have hbase : baseOf spec.conversion = unsignedBase spec.conversion :=
      if_neg (hsigned ▸ Bool.false_ne_true)
    rw [conversionText_unsigned hch hsigned, noWidth_conversion,
      conversionText_unsigned hch hsigned]
    rw [hbase] at hlaw
    exact hlaw (unsignedArg spec.modifier (args 0)) false false

/-- The law for strings and characters. -/
theorem output_widened_iff_of_string (h : decimal spec.width < 2 ^ 31)
    (hch : ¬ IsInteger spec.conversion) :
    Widened spec.conversion (decimal spec.width) ((noWidth spec).output mem args)
        (spec.output mem args) ↔ ¬ Overlong spec mem args := by
  have hlaw := fun length string => @stringText_widened_iff spec.parsed (noWidth spec).parsed length
    spec.conversion _ (toInt_parsed_width h) noWidth_width string
  have hcases : spec.conversion = 'c' ∨ spec.conversion = 's' := by
    have hall := spec.isConversion
    simp only [IsConversion, IsInteger, mem_cons, not_mem_nil, or_false] at hall hch
    tauto
  rw [Spec.output, Spec.output, noWidth_conversion]
  rcases hcases with hc | hs
  · refine iff_of_true ?_ fun hs => absurd (hc.symm.trans hs.1) (by decide)
    rw [hc] at hlaw ⊢
    exact (hlaw 1 fun _ => Char.ofNat (args 0).toUInt8.toNat).mpr fun h => absurd h.1 (by decide)
  · rw [hs] at hlaw ⊢
    refine (hlaw _ (stringArg mem (args 0))).trans (not_congr ?_)
    exact ⟨fun h => ⟨hs, h⟩, fun h => h.2⟩

end Conversions

/-- For every conversion of an integer, a character or a string, with any flags and precision and a
width below `2 ^ 31` in digits, what `__vprintf` emits is the text without the width, filled up to
the width, exactly when the length of a string is not negative. -/
theorem field_width_law_iff (spec : Spec) (mem : Memory) (args : VaList)
    (h : decimal spec.width < 2 ^ 31) :
    ∃ bare text, Emits (printed mem ('%' :: (noWidth spec).text) args) bare (.ok ()) ∧
      Emits (printed mem ('%' :: spec.text) args) text (.ok ()) ∧
      (Widened spec.conversion (decimal spec.width) bare text ↔ ¬ Overlong spec mem args) := by
  refine ⟨_, _, (noWidth spec).emits_output mem args, spec.emits_output mem args, ?_⟩
  by_cases hch : IsInteger spec.conversion
  · refine iff_of_true (output_widened_of_integer h hch) ?_
    rintro ⟨hs, -⟩
    rw [hs] at hch
    exact absurd hch (by unfold IsInteger; decide)
  · exact output_widened_iff_of_string h hch

/-- The conversion `%05d`. -/
def zeroFive : Spec where
  flags := ['0']
  width := ['5']
  precision := none
  modifier := .int
  conversion := 'd'
  isFlag_flags := fun _ h => mem_singleton.mp h ▸ rfl
  isDigit_width := fun _ h => mem_singleton.mp h ▸ rfl
  width_ne_zero := by decide
  isDigit_precision := isDigit_none
  isConversion := by unfold IsConversion; decide

/-- `%05d` of 42 is filled with zeros. -/
theorem field_width_law_zeroFive :
    ∃ bare text, Emits (printed blank "%0d".toList fun _ => 42) bare (.ok ()) ∧
      Emits (printed blank "%05d".toList fun _ => 42) text (.ok ()) ∧ Widened 'd' 5 bare text := by
  obtain ⟨bare, text, hbare, htext, hiff⟩ :=
    field_width_law_iff zeroFive blank (fun _ => 42) (by decide)
  refine ⟨bare, text, hbare, htext, hiff.mpr ?_⟩
  rintro ⟨h, -⟩
  exact absurd h (by decide)

/-! ## A width from the arguments -/

/-- The padding adds nothing to the digits. -/
theorem Widened.numberOf_eq {ch : Char} {n : Nat} {bare text : List Char}
    (h : Widened ch n bare text) : numberOf (baseOf ch) text = numberOf (baseOf ch) bare := by
  have hb := isBase_baseOf ch
  obtain ⟨-, pad, rfl | rfl | ⟨-, sign, front, body, hsign, hfront, -, rfl, rfl⟩⟩ := h
  · rw [numberOf, digitValues_append, digitValues_blanks hb]
    rfl
  · rw [numberOf, digitValues_append, digitValues_blanks hb, append_nil]
    rfl
  · have hread : ∀ s, numberOf (baseOf ch) (sign.toList ++ (front ++ s)) =
        numberOf (baseOf ch) s := by
      intro s
      rw [numberOf, digitValues_append, digitValues_sign hb hsign]
      exact numberOf_front hb hfront s
    rw [hread, hread, numberOf_zeros hb]

/-- What is emitted for `%*d`: the first argument, in a field of a width that is no argument. -/
theorem emits_star (mem : Memory) (args : VaList) :
    ∃ text, Emits (printed mem "%*d".toList args) text (.ok ()) ∧
      Denotes baseD text (takenValue true .int (args 0)) := by
  have hd : IsConversion 'd' := by unfold IsConversion; decide
  have hemits :=
    @emits_loop_conversion mem 34 ['*', 'd'] [] args (.ok ()) [] _ 'd' _ (by decide) rfl
    (emits_convert hd) (emits_loop_nil mem 33 args.tail)
  rw [append_nil, conversionText_signed rfl] at hemits
  exact ⟨_, hemits, denotes_signedText (parseConversion mem ['*', 'd']).1 (args 0)⟩

/-- `%*d` with the width 5 and the value 42 prints the 5, whatever is found for the width. -/
theorem field_width_star :
    (∀ mem, Emits (printed mem "%d".toList fun _ => 42) "42".toList (.ok ())) ∧
      ∀ mem, ∃ text, Emits (printed mem "%*d".toList fun i => if i = 0 then 5 else 42) text
        (.ok ()) ∧ ¬ Widened 'd' 5 "42".toList text := by
  constructor
  · intro mem
    have hemits :=
      (Spec.plain .int 'd' (by unfold IsConversion; decide)).emits_output mem fun _ => 42
    have htext : (Spec.plain .int 'd' (by unfold IsConversion; decide)).output mem (fun _ => 42) =
        "42".toList := by
      rw [Spec.output, conversionText_signed rfl]
      decide +kernel
    rw [htext] at hemits
    exact hemits
  · intro mem
    obtain ⟨text, hemits, hdenotes⟩ := emits_star mem fun i => if i = 0 then 5 else 42
    refine ⟨text, hemits, fun hwidened => ?_⟩
    have hread := hdenotes.eq_read isBase_baseD
    have hvalue : takenValue true .int 5 = 5 := by decide +kernel
    have hnumber : numberOf baseD text = 42 := hwidened.numberOf_eq.trans (by decide +kernel)
    rw [if_pos rfl, hvalue, hnumber] at hread
    split_ifs at hread <;> omega

end Pintos.LibC.StdioWidths
