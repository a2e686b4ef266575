import Pintos.Lib.MachineIntegers
import Pintos.LibC.StdioSpecs

/-!
# Integer conversions and the values they print

What the text of an integer conversion denotes, read the way a person reads it: blanks, a sign, the
prefix of base 16, digits with separators, blanks (`Denotes`). A text denotes one value at most. The
text that `__vprintf` emits for `d`, `i`, `o`, `u`, `x` and `X` denotes the value that the code
takes from its argument (`denotes_output`). That value is the argument, converted to the type of the
length modifier, except where `stdint.h` has 32-bit limits for the 64-bit types `size_t` and
`ptrdiff_t` (`Misread`).
-/

set_option autoImplicit false

namespace Pintos.LibC.StdioValues

open Lib.Emission Lib.MachineIntegers LibC.Stdio StdioNumerals List
open StdioFormats StdioSpecs

/-! ## What a text denotes -/

/-- The values of the digits in a text. -/
def digitValues (b : IntegerBase) (text : List Char) : List Nat :=
  text.filterMap fun ch => b.digits.idxOf? ch

/-- The number that the digits of a text make up. -/
def numberOf (b : IntegerBase) (text : List Char) : Nat :=
  Nat.ofDigits b.base (digitValues b text).reverse

/-- The text consists of blanks, a sign, the prefix of the base, digits with separators and blanks,
and stands for `v`. -/
def Denotes (b : IntegerBase) (text : List Char) (v : Int) : Prop :=
  ∃ (left right : Nat) (sign : Option Char) (front body : List Char),
    text = List.replicate left ' ' ++
      (sign.toList ++ (front ++ (body ++ List.replicate right ' '))) ∧
    (∀ ch ∈ sign, ch ∈ ['-', '+', ' ']) ∧
    (front = [] ∨ ∃ x ∈ b.x, front = ['0', x]) ∧
    (∀ ch ∈ body, ch ∈ b.digits ∨ ch = ',') ∧
    v = (if sign = some '-' then -1 else 1) * (numberOf b body : Int)

section Denotes

variable {b : IntegerBase}

/-- Characters beside the digits. -/
theorem idxOf?_other (hb : IsBase b) {ch : Char} (hch : ch ∈ [' ', '-', '+', ',']) :
    b.digits.idxOf? ch = none := by
  simp only [mem_cons, not_mem_nil, or_false] at hch
  rcases hch with rfl | rfl | rfl | rfl <;> rcases hb.cases with rfl | rfl | rfl | rfl <;> decide

theorem idxOf?_zero (hb : IsBase b) : b.digits.idxOf? '0' = some 0 := by
  rcases hb.cases with rfl | rfl | rfl | rfl <;> decide

theorem idxOf?_x (hb : IsBase b) : ∀ x ∈ b.x, b.digits.idxOf? x = none ∧ x ≠ '-' := by
  intro x hx
  rcases hb.cases with rfl | rfl | rfl | rfl
  · exact absurd hx (Option.not_mem_none x)
  · exact absurd hx (Option.not_mem_none x)
  · obtain rfl := Option.some.inj hx
    decide
  · obtain rfl := Option.some.inj hx
    decide

theorem idxOf?_digitChar (hb : IsBase b) :
    ∀ d < b.base, b.digits.idxOf? (digitChar b d) = some d := by
  rcases hb.cases with rfl | rfl | rfl | rfl <;> decide

theorem digitChar_mem (hb : IsBase b) : ∀ d < b.base, digitChar b d ∈ b.digits := by
  rcases hb.cases with rfl | rfl | rfl | rfl <;> decide

theorem minus_not_mem (hb : IsBase b) : '-' ∉ b.digits := by
  rcases hb.cases with rfl | rfl | rfl | rfl <;> decide

theorem digitValues_append (b : IntegerBase) (s t : List Char) :
    digitValues b (s ++ t) = digitValues b s ++ digitValues b t := filterMap_append

theorem digitValues_blanks (hb : IsBase b) (n : Nat) :
    digitValues b (List.replicate n ' ') = [] := by
  refine filterMap_eq_nil_iff.mpr fun ch hch => ?_
  rw [eq_of_mem_replicate hch]
  exact idxOf?_other hb (by decide)

theorem digitValues_sign (hb : IsBase b) {sign : Option Char}
    (hsign : ∀ ch ∈ sign, ch ∈ ['-', '+', ' ']) : digitValues b sign.toList = [] := by
  refine filterMap_eq_nil_iff.mpr fun ch hch => ?_
  have hmem := hsign ch (Option.mem_toList.mp hch)
  refine idxOf?_other hb ?_
  simp only [mem_cons, not_mem_nil, or_false] at hmem ⊢
  tauto

/-- Zeros in front do not change a number. -/
theorem numberOf_zeros (hb : IsBase b) (n : Nat) (s : List Char) :
    numberOf b (List.replicate n '0' ++ s) = numberOf b s := by
  have hzeros : digitValues b (List.replicate n '0') = List.replicate n 0 := by
    exact filterMap_replicate_of_some (f := fun ch => b.digits.idxOf? ch) (idxOf?_zero hb)
  rw [numberOf, digitValues_append, hzeros, reverse_append, reverse_replicate,
    Nat.ofDigits_append_replicate_zero]
  rfl

theorem numberOf_front (hb : IsBase b) {front : List Char}
    (hfront : front = [] ∨ ∃ x ∈ b.x, front = ['0', x]) (s : List Char) :
    numberOf b (front ++ s) = numberOf b s := by
  rcases hfront with rfl | ⟨x, hx, rfl⟩
  · rfl
  · have hsplit : numberOf b (['0', x] ++ s) = numberOf b (List.replicate 1 '0' ++ s) := by
      rw [numberOf, numberOf, digitValues_append, digitValues_append]
      simp only [digitValues, filterMap_cons, (idxOf?_x hb x hx).1, replicate_one]
    rw [hsplit, numberOf_zeros hb]

/-- A text denotes one value at most. -/
theorem Denotes.eq_read (hb : IsBase b) {text : List Char} {v : Int} (h : Denotes b text v) :
    v = (if '-' ∈ text then -1 else 1) * (numberOf b text : Int) := by
  obtain ⟨left, right, sign, front, body, rfl, hsign, hfront, hbody, rfl⟩ := h
  have hnumber : numberOf b (List.replicate left ' ' ++ (sign.toList ++
      (front ++ (body ++ List.replicate right ' ')))) = numberOf b body := by
    rw [numberOf, digitValues_append, digitValues_blanks hb, digitValues_append,
      digitValues_sign hb hsign, nil_append, nil_append, ← append_assoc,
      digitValues_append, digitValues_blanks hb, append_nil]
    exact numberOf_front hb hfront body
  have hfront' : '-' ∉ front := by
    rcases hfront with rfl | ⟨x, hx, rfl⟩
    · exact not_mem_nil
    · have := (idxOf?_x hb x hx).2
      simp only [mem_cons, not_mem_nil, or_false, not_or]
      exact ⟨by decide, Ne.symm this⟩
  have hbody' : '-' ∉ body := by
    intro hmem
    rcases hbody '-' hmem with hdigit | hcomma
    · exact minus_not_mem hb hdigit
    · exact absurd hcomma (by decide)
  have hiff : '-' ∈ List.replicate left ' ' ++ (sign.toList ++
      (front ++ (body ++ List.replicate right ' '))) ↔ sign = some '-' := by
    simp only [mem_append, mem_replicate, hfront', hbody', Option.mem_toList, false_or]
    constructor
    · rintro (⟨-, h⟩ | h | ⟨-, h⟩)
      · exact absurd h (by decide)
      · exact h
      · exact absurd h (by decide)
    · exact fun h => .inr (.inl h)
  rw [hnumber]
  simp only [hiff]

theorem Denotes.unique (hb : IsBase b) {text : List Char} {v w : Int} (hv : Denotes b text v)
    (hw : Denotes b text w) : v = w :=
  (hv.eq_read hb).trans (hw.eq_read hb).symm

end Denotes

/-! ## What `format_integer` prints -/

section Format

variable {b : IntegerBase}

theorem digitValues_digitsOf (hb : IsBase b) (value : Nat) :
    digitValues b (digitsOf b value) = Nat.digits b.base value := by
  have hbase := hb.base_ge
  rw [digitValues, digitsOf, filterMap_map]
  refine Eq.trans (filterMap_congr fun d hd => ?_) filterMap_some
  exact idxOf?_digitChar hb d (Nat.digits_lt_base (by omega) hd)

theorem digitValues_separated (hb : IsBase b) {group : Bool} {g n : Nat} (ds : List Char) :
    digitValues b (separated group g n ds) = digitValues b ds := by
  have hcomma := @idxOf?_other b hb ',' (by decide)
  induction ds generalizing n with
  | nil => rfl
  | cons d ds ih =>
    have hcons : ∀ (ch : Char) (s t : List Char), digitValues b s = digitValues b t →
        digitValues b (ch :: s) = digitValues b (ch :: t) := by
      intro ch s t h
      simp only [digitValues, filterMap_cons] at h ⊢
      rw [h]
    rw [separated]
    split_ifs
    · refine Eq.trans ?_ (hcons d _ _ (ih (n := n + 1)))
      exact filterMap_cons_none hcomma
    · exact hcons d _ _ ih

/-- The number in the buffer of `format_integer`. -/
theorem numberOf_bufferOf (hb : IsBase b) (value : UInt64) (c : PrintfConversion) :
    numberOf b (bufferOf value b c) = value.toNat := by
  obtain ⟨zeros, hbuffer, -⟩ := bufferOf_eq hb value c
  rw [hbuffer, numberOf_zeros hb, numberOf, digitValues, filterMap_reverse, reverse_reverse]
  change Nat.ofDigits b.base (digitValues b _) = _
  rw [digitValues_separated hb, digitValues_digitsOf hb, Nat.ofDigits_digits]

theorem mem_separated {group : Bool} {g n : Nat} {ds : List Char} {ch : Char}
    (h : ch ∈ separated group g n ds) : ch ∈ ds ∨ ch = ',' := by
  induction ds generalizing n with
  | nil => exact .inl h
  | cons d ds ih =>
    rw [separated] at h
    split_ifs at h
    · simp only [mem_cons] at h ⊢
      rcases h with h | h | h
      · exact .inr h
      · exact .inl (.inl h)
      · exact (ih h).imp_left .inr
    · simp only [mem_cons] at h ⊢
      rcases h with h | h
      · exact .inl (.inl h)
      · exact (ih h).imp_left .inr

theorem zero_mem_digits (hb : IsBase b) : '0' ∈ b.digits := by
  rcases hb.cases with rfl | rfl | rfl | rfl <;> decide

theorem mem_bufferOf (hb : IsBase b) (value : UInt64) (c : PrintfConversion) :
    ∀ ch ∈ bufferOf value b c, ch ∈ b.digits ∨ ch = ',' := by
  have hbase := hb.base_ge
  obtain ⟨zeros, hbuffer, -⟩ := bufferOf_eq hb value c
  intro ch hch
  rw [hbuffer, mem_append, mem_reverse] at hch
  rcases hch with hch | hch
  · rw [eq_of_mem_replicate hch]
    exact .inl (zero_mem_digits hb)
  · refine (mem_separated hch).imp_left fun hch => ?_
    obtain ⟨d, hd, rfl⟩ := mem_map.1 hch
    exact digitChar_mem hb d (Nat.digits_lt_base (by omega) hd)

theorem signChar_mem (isSigned negative : Bool) (f : Flags) :
    ∀ ch ∈ signChar isSigned negative f, ch ∈ ['-', '+', ' '] := by
  unfold signChar
  cases isSigned <;> cases negative <;> cases f.plus <;> cases f.space <;> simp

theorem signChar_eq_minus_iff (isSigned negative : Bool) (f : Flags) :
    signChar isSigned negative f = some '-' ↔ isSigned = true ∧ negative = true := by
  unfold signChar
  cases isSigned <;> cases negative <;> cases f.plus <;> cases f.space <;> simp

theorem xChar_mem (value : UInt64) (b : IntegerBase) (f : Flags) :
    ∀ x ∈ xChar value b f, x ∈ b.x := by
  intro x hx
  unfold xChar at hx
  split_ifs at hx
  · exact hx
  · exact absurd hx (Option.not_mem_none x)

/-- The text of an integer conversion denotes the value with its sign, for all flags, widths and
precisions. -/
theorem denotes_integerOut (hb : IsBase b) (value : UInt64) (isSigned negative : Bool)
    (c : PrintfConversion) :
    Denotes b (integerOut value isSigned negative b c)
      ((if isSigned = true ∧ negative = true then -1 else 1) * (value.toNat : Int)) := by
  rw [integerOut, integerText]
  generalize padCnt c.width (bufferOf value b c).length (xChar value b c.flags)
    (signChar isSigned negative c.flags) = pad
  -- the zeros of the `0` flag belong to the digits, the blanks to one of the two ends
  refine ⟨if !c.flags.minus && !c.flags.zero then pad else 0, if c.flags.minus then pad else 0,
    signChar isSigned negative c.flags,
    (if (xChar value b c.flags).isSome then ['0'] else []) ++ (xChar value b c.flags).toList,
    List.replicate (if c.flags.zero then pad else 0) '0' ++ bufferOf value b c,
    ?_, signChar_mem isSigned negative c.flags, ?_, ?_, ?_⟩
  · cases c.flags.minus <;> cases c.flags.zero <;> simp [append_assoc]
  · cases hcase : xChar value b c.flags with
    | none => exact .inl rfl
    | some x => exact .inr ⟨x, xChar_mem value b c.flags x hcase, rfl⟩
  · intro ch hch
    rcases mem_append.mp hch with hch | hch
    · rw [eq_of_mem_replicate hch]
      exact .inl (zero_mem_digits hb)
    · exact mem_bufferOf hb value c ch hch
  · rw [numberOf_zeros hb, numberOf_bufferOf hb]
    simp only [signChar_eq_minus_iff]

end Format

/-! ## What the code takes from an argument -/

/-- The width of the type of a length modifier. -/
def typeBits : ArgType → Nat
  | .char => 8
  | .short => 16
  | .int => 32
  | .intmax | .long | .longlong | .ptrdifft | .sizet => 64

/-- An argument, converted to the signed or unsigned type of a length modifier. -/
def argumentValue (isSigned : Bool) (type : ArgType) (w : UInt64) : Int :=
  if isSigned then Int.bmod w.toNat (2 ^ typeBits type) else (w.toNat % 2 ^ typeBits type : Nat)

/-- The value that the code prints for an argument. -/
def takenValue (isSigned : Bool) (type : ArgType) (w : UInt64) : Int :=
  if isSigned then (signedArg type w).toInt else (unsignedArg type w).toNat

/-- Arguments whose type has a limit in `stdint.h` that is too small for them. -/
def Misread (isSigned : Bool) (type : ArgType) (w : UInt64) : Prop :=
  (isSigned = true ∧ type = .sizet ∧ 2 ^ 31 ≤ w.toNat ∧ w.toNat < 2 ^ 63) ∨
    (isSigned = false ∧ type = .ptrdifft ∧ 2 ^ 32 ≤ w.toNat)

/-- The magnitude is right for the most negative value too. -/
theorem toNat_magnitude (v : Int64) : (magnitude v).toNat = v.toInt.natAbs := by
  have hcond := toInt_eq_cond v
  have hlt := v.toUInt64.toNat_lt
  have hneg : v < 0 ↔ v.toInt < 0 := Int64.lt_iff_toInt_lt
  simp only [magnitude, hneg]
  by_cases hsign : v.toInt < 0
  · rw [if_pos hsign, Int64.toUInt64_neg, UInt64.toNat_neg, UInt64.size]
    split_ifs at hcond <;> omega
  · rw [if_neg hsign]
    split_ifs at hcond <;> omega

theorem toInt_toInt64 (w : UInt64) : w.toInt64.toInt = Int.bmod w.toNat (2 ^ 64) := by
  simp [Int64.toInt, BitVec.toInt_eq_toNat_bmod]

/-- With the limit of `stdint.h`, the code takes large values of `size_t` to be negative. -/
theorem signedArg_sizet (w : UInt64) : (signedArg .sizet w).toInt =
    if 2 ^ 31 ≤ w.toInt64.toInt then w.toInt64.toInt - 2 ^ 32 else w.toInt64.toInt := by
  have hhalf : sizeMax / 2 = 2147483647 := by decide
  have hlimit : (2147483647 : Int64).toInt = 2147483647 := by decide
  have hmax : sizeMax.toInt = 4294967295 := by decide
  have hone : (1 : Int64).toInt = 1 := by decide
  have hlt := w.toInt64.toInt_lt
  simp only [signedArg, hhalf, gt_iff_lt, Int64.lt_iff_toInt_lt, hlimit]
  split_ifs with h1 h2 h2
  · rw [Int64.toInt_sub, Int64.toInt_sub, hmax, hone, Int.bmod_sub_bmod,
      Int.bmod_eq_of_le] <;> omega
  · omega
  · omega
  · rfl

theorem unsignedArg_ptrdifft (w : UInt64) : (unsignedArg .ptrdifft w).toNat = w.toNat % 2 ^ 32 := by
  have hmask : (ptrdiffMax <<< 1) ||| 1 = 4294967295 := by decide
  exact Nat.and_two_pow_sub_one_eq_mod _ 32

theorem takenValue_signed (type : ArgType) (w : UInt64) (h : type ≠ .sizet) :
    takenValue true type w = argumentValue true type w := by
  change (signedArg type w).toInt = Int.bmod w.toNat (2 ^ typeBits type)
  cases type with
  | char =>
    simp [signedArg, typeBits, Int8.toInt_toInt64, Int8.toInt, BitVec.toInt_eq_toNat_bmod]
    exact Int.emod_bmod ..
  | short =>
    simp [signedArg, typeBits, Int16.toInt_toInt64, Int16.toInt, BitVec.toInt_eq_toNat_bmod]
    exact Int.emod_bmod ..
  | int =>
    simp [signedArg, typeBits, Int32.toInt_toInt64, Int32.toInt, BitVec.toInt_eq_toNat_bmod]
    exact Int.emod_bmod ..
  | sizet => exact absurd rfl h
  | _ => exact toInt_toInt64 w

theorem takenValue_unsigned (type : ArgType) (w : UInt64) (h : type ≠ .ptrdifft) :
    takenValue false type w = argumentValue false type w := by
  have hlt := w.toNat_lt
  change ((unsignedArg type w).toNat : Int) = (w.toNat % 2 ^ typeBits type : Nat)
  congr 1
  cases type with
  | char => rfl
  | short => rfl
  | int => rfl
  | ptrdifft => exact absurd rfl h
  | _ => exact (Nat.mod_eq_of_lt hlt).symm

/-- The code takes the argument as it was passed, except where a limit of `stdint.h` is too
small. -/
theorem takenValue_eq_iff (isSigned : Bool) (type : ArgType) (w : UInt64) :
    takenValue isSigned type w = argumentValue isSigned type w ↔ ¬ Misread isSigned type w := by
  have hlt := w.toNat_lt
  cases isSigned with
  | true =>
    by_cases htype : type = .sizet
    · subst htype
      have hcond := toInt_eq_cond w.toInt64
      rw [UInt64.toUInt64_toInt64] at hcond
      rw [takenValue, argumentValue, if_pos rfl, if_pos rfl, typeBits, ← toInt_toInt64,
        signedArg_sizet]
      simp only [Misread, true_and, reduceCtorEq, false_and, or_false]
      split_ifs at hcond ⊢ <;> omega
    · refine iff_of_true (takenValue_signed type w htype) ?_
      rintro (⟨-, h, -⟩ | ⟨h, -⟩)
      · exact htype h
      · exact Bool.noConfusion h
  | false =>
    by_cases htype : type = .ptrdifft
    · subst htype
      rw [takenValue, argumentValue, if_neg Bool.false_ne_true, if_neg Bool.false_ne_true, typeBits,
        unsignedArg_ptrdifft]
      simp only [Misread, reduceCtorEq, false_and, false_or, true_and]
      omega
    · refine iff_of_true (takenValue_unsigned type w htype) ?_
      rintro (⟨h, -⟩ | ⟨-, h, -⟩)
      · exact Bool.noConfusion h
      · exact htype h

/-! ## Integer conversions -/

/-- The integer conversions. -/
def IsInteger (ch : Char) : Prop := ch ∈ ['d', 'i', 'o', 'u', 'x', 'X']

/-- The conversions of signed integers. -/
def isSignedConversion (ch : Char) : Bool := ch = 'd' || ch = 'i'

/-- The base of an integer conversion. -/
def baseOf (ch : Char) : IntegerBase := if isSignedConversion ch then baseD else unsignedBase ch

theorem isBase_baseOf (ch : Char) : IsBase (baseOf ch) := by
  unfold baseOf
  split_ifs
  · exact isBase_baseD
  · exact isBase_unsignedBase ch

theorem denotes_signedText (c : PrintfConversion) (w : UInt64) :
    Denotes baseD (signedText c w) (takenValue true c.type w) := by
  have h := denotes_integerOut isBase_baseD (magnitude (signedArg c.type w)) true
    (signedArg c.type w < 0) c
  have hvalue : takenValue true c.type w =
      (if true = true ∧ decide (signedArg c.type w < 0) = true then -1 else 1) *
        ((magnitude (signedArg c.type w)).toNat : Int) := by
    have hneg : signedArg c.type w < 0 ↔ (signedArg c.type w).toInt < 0 := Int64.lt_iff_toInt_lt
    change (signedArg c.type w).toInt = _
    simp only [toNat_magnitude, true_and, decide_eq_true_eq, hneg]
    split_ifs <;> omega
  rw [hvalue]
  exact h

theorem denotes_unsignedText (ch : Char) (c : PrintfConversion) (w : UInt64) :
    Denotes (unsignedBase ch) (unsignedText ch c w) (takenValue false c.type w) := by
  have h := denotes_integerOut (isBase_unsignedBase ch) (unsignedArg c.type w) false false c
  rw [if_neg (fun h => Bool.noConfusion h.1), one_mul] at h
  exact h

theorem conversionText_signed {ch : Char} (h : isSignedConversion ch = true) (mem : Memory)
    (c : PrintfConversion) (w : UInt64) : conversionText mem ch c w = signedText c w := by
  simp only [isSignedConversion, Bool.or_eq_true, decide_eq_true_eq] at h
  exact if_pos h

theorem conversionText_unsigned {ch : Char} (hint : IsInteger ch)
    (h : isSignedConversion ch = false) (mem : Memory) (c : PrintfConversion) (w : UInt64) :
    conversionText mem ch c w = unsignedText ch c w := by
  have hsigned : ¬ (ch = 'd' ∨ ch = 'i') := by
    simpa only [isSignedConversion, Bool.or_eq_false_iff, decide_eq_false_iff_not, not_or] using h
  have hchar : ch ≠ 'c' := by
    rintro rfl
    exact absurd hint (by unfold IsInteger; decide)
  have hstring : ch ≠ 's' := by
    rintro rfl
    exact absurd hint (by unfold IsInteger; decide)
  rw [conversionText, if_neg hsigned, if_neg hchar, if_neg hstring]

/-- What an integer conversion emits denotes the value that the code takes. -/
theorem denotes_output (spec : Spec) (h : IsInteger spec.conversion) (mem : Memory)
    (args : VaList) :
    Denotes (baseOf spec.conversion) (spec.output mem args)
      (takenValue (isSignedConversion spec.conversion) spec.modifier (args 0)) := by
  rw [Spec.output, baseOf]
  cases hsigned : isSignedConversion spec.conversion with
  | true =>
    rw [conversionText_signed hsigned, if_pos rfl]
    exact denotes_signedText spec.parsed _
  | false =>
    rw [conversionText_unsigned h hsigned, if_neg Bool.false_ne_true]
    exact denotes_unsignedText spec.conversion spec.parsed _

/-- For every integer conversion, with any flags, literal width and precision and length modifier,
and every argument, `__vprintf` emits a text that denotes the argument, converted to the type of the
modifier, exactly when no limit of `stdint.h` is too small for it. -/
theorem integer_conversion_denotes_iff (spec : Spec) (h : IsInteger spec.conversion)
    (mem : Memory) (args : VaList) :
    ∃ text, Emits (printed mem ('%' :: spec.text) args) text (.ok ()) ∧
      (Denotes (baseOf spec.conversion) text (argumentValue (isSignedConversion spec.conversion)
          spec.modifier (args 0)) ↔
        ¬ Misread (isSignedConversion spec.conversion) spec.modifier (args 0)) := by
  refine ⟨_, spec.emits_output mem args, ?_⟩
  have htaken := denotes_output spec h mem args
  rw [← takenValue_eq_iff]
  constructor
  · exact fun harg => htaken.unique (isBase_baseOf spec.conversion) harg
  · exact fun heq => heq ▸ htaken

/-- `%ld` of the most negative value. -/
theorem integer_conversion_denotes_mostNegative :
    ∃ text, Emits (printed blank "%ld".toList fun _ => 0x8000000000000000) text (.ok ()) ∧
      Denotes baseD text (-9223372036854775808) := by
  obtain ⟨text, hemits, hiff⟩ := integer_conversion_denotes_iff
    (Spec.plain .long 'd' (by unfold IsConversion; decide)) (by unfold IsInteger; decide)
    blank fun _ => 0x8000000000000000
  refine ⟨text, hemits, hiff.mpr ?_⟩
  rintro (⟨-, h, -⟩ | ⟨h, -⟩)
  · exact ArgType.noConfusion h
  · exact Bool.noConfusion h

/-- `%zd` of 2147483648 prints a negative number, and `%tu` of 4294967296 prints 0. -/
theorem integer_conversion_misread :
    (Emits (printed blank "%zd".toList fun _ => 2147483648) "-2147483648".toList (.ok ()) ∧
      argumentValue true .sizet 2147483648 = 2147483648 ∧
      ¬ Denotes baseD "-2147483648".toList 2147483648) ∧
    (Emits (printed blank "%tu".toList fun _ => 4294967296) "0".toList (.ok ()) ∧
      argumentValue false .ptrdifft 4294967296 = 4294967296 ∧
      ¬ Denotes baseD "0".toList 4294967296) := by
  refine ⟨⟨?_, by decide +kernel, fun h => ?_⟩, ⟨?_, by decide +kernel, fun h => ?_⟩⟩
  · have hemits := (Spec.plain .sizet 'd' (by unfold IsConversion; decide)).emits_output
      blank fun _ => 2147483648
    have htext : (Spec.plain .sizet 'd' (by unfold IsConversion; decide)).output
        blank (fun _ => 2147483648) = "-2147483648".toList := by decide +kernel
    rw [htext] at hemits
    exact hemits
  · exact absurd (h.eq_read isBase_baseD) (by decide +kernel)
  · have hemits := (Spec.plain .ptrdifft 'u' (by unfold IsConversion; decide)).emits_output
      blank fun _ => 4294967296
    have htext : (Spec.plain .ptrdifft 'u' (by unfold IsConversion; decide)).output
        blank (fun _ => 4294967296) = "0".toList := by decide +kernel
    exact hemits
  · exact absurd (h.eq_read isBase_baseD) (by decide +kernel)

end Pintos.LibC.StdioValues
