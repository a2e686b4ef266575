import Pintos.LibC.StdioSinks
import Pintos.LibC.StdioWidths

/-!
# Numbers out and in again

`atoi` of `lib/stdlib.c` against `snprintf` with `%d`. `atoi` skips white space, reads a sign and
accumulates the digits as a negative number. It stops with `overflow` as soon as a value leaves the
range of `int`. The text of `%d` is blanks, a sign, digits and blanks (`signedText_shape`), and
`atoi` reads such a text as its number (`atoi_shape`), so it returns the value that was printed.
-/

set_option autoImplicit false

namespace Pintos.LibC.StdlibAtoi

open Lib.Emission LibC.Stdio StdioNumerals StdioFormats List
open StdioSpecs StdioValues StdioWidths StdioSinks

/-! ## `atoi` -/

/-- Why `atoi` stops: a value that does not fit into an `int`. -/
inductive Overflow where
  | overflow
  deriving DecidableEq, Repr

/-- A value of type `int`. -/
def inInt (v : Int) : Except Overflow Int :=
  if -2 ^ 31 ≤ v ∧ v < 2 ^ 31 then .ok v else .error .overflow

/-- `isspace`. -/
def isspace (ch : Char) : Bool := ch ∈ [' ', '\x0c', '\n', '\r', '\t', '\x0b']

/-- The sign of a number, with what follows it. -/
def parseSign : List Char → Bool × List Char
  | '+' :: s => (false, s)
  | '-' :: s => (true, s)
  | s => (false, s)

/-- The digit loop of `atoi`. -/
def accumulate : List Char → Int → Except Overflow Int
  | [], value => .ok value
  | ch :: s, value =>
    if ch.isDigit then do
      let product ← inInt (value * 10)
      let value ← inInt (product - (ch.toNat - 48 : Nat))
      accumulate s value
    else
      .ok value

/-- `atoi`, on the characters of a string up to its terminator. -/
def atoi (s : List Char) : Except Overflow Int := do
  let (negative, s) := parseSign (s.dropWhile isspace)
  let value ← accumulate s 0
  if negative then .ok value else inInt (-value)

/-- The string in memory. -/
def stringAt (memory : Nat → Char) (n : Nat) : List Char :=
  ((List.range n).map memory).takeWhile (· ≠ '\x00')

/-! ## Reading a number -/

theorem inInt_of_range {v : Int} (h : -2 ^ 31 ≤ v) (h' : v < 2 ^ 31) : inInt v = .ok v :=
  if_pos ⟨h, h'⟩

/-- More digits do not make a number smaller. -/
theorem le_foldl_digits (ds : List Char) (k : Nat) :
    k ≤ ds.foldl (fun n ch => n * 10 + (ch.toNat - 48)) k := by
  induction ds generalizing k with
  | nil => exact le_rfl
  | cons ch ds ih =>
    calc k ≤ k * 10 + (ch.toNat - 48) := by omega
      _ ≤ _ := ih _

/-- The digit loop reads the digits as a negative number; every value on the way lies between that
number and 0. -/
theorem accumulate_digits {ds rest : List Char} (hds : ∀ ch ∈ ds, ch.isDigit)
    (hrest : ∀ ch ∈ rest.head?, ¬ ch.isDigit) (k : Nat)
    (h : ds.foldl (fun n ch => n * 10 + (ch.toNat - 48)) k ≤ 2 ^ 31) :
    accumulate (ds ++ rest) (-(k : Int)) =
      .ok (-(ds.foldl (fun n ch => n * 10 + (ch.toNat - 48)) k : Nat)) := by
  induction ds generalizing k with
  | nil =>
    cases rest with
    | nil => rfl
    | cons ch rest => exact if_neg (hrest ch rfl)
  | cons ch ds ih =>
    have hle : k * 10 + (ch.toNat - 48) ≤ 2 ^ 31 := le_trans (le_foldl_digits ds _) h
    have hproduct : inInt (-(k : Int) * 10) = .ok (-(k : Int) * 10) :=
      inInt_of_range (by omega) (by omega)
    have hvalue : inInt (-(k : Int) * 10 - (ch.toNat - 48 : Nat)) =
        .ok (-((k * 10 + (ch.toNat - 48) : Nat) : Int)) := by
      rw [inInt_of_range (by omega) (by omega)]
      congr 1
      omega
    rw [cons_append, accumulate, if_pos (hds ch mem_cons_self), hproduct]
    change (inInt (-(k : Int) * 10 - (ch.toNat - 48 : Nat)) >>= fun value =>
      accumulate (ds ++ rest) value) = _
    rw [hvalue]
    exact ih (fun ch' h' => hds ch' (mem_cons_of_mem _ h')) _ h

/-- Texts that are blanks, a sign, digits and blanks. -/
structure Shape where
  left : Nat
  right : Nat
  sign : Option Char
  digits : List Char
  isSign : ∀ ch ∈ sign, ch ∈ ['-', '+', ' ']
  isDigit : ∀ ch ∈ digits, ch.isDigit
  nonempty : digits ≠ []

namespace Shape

/-- The characters. -/
def text (shape : Shape) : List Char :=
  List.replicate shape.left ' ' ++ (shape.sign.toList ++
    (shape.digits ++ List.replicate shape.right ' '))

/-- The number. -/
def value (shape : Shape) : Int :=
  if shape.sign = some '-' then -(decimal shape.digits : Int) else decimal shape.digits

end Shape

variable {ch : Char} {c : PrintfConversion}

/-- A digit is no white space, and no sign. -/
theorem isspace_of_isDigit (h : ch.isDigit) : ¬ isspace ch ∧ ch ≠ '+' ∧ ch ≠ '-' := by
  refine ⟨?_, ?_, ?_⟩
  · simp only [isspace, mem_cons, not_mem_nil, or_false, decide_eq_true_eq]
    rintro (rfl | rfl | rfl | rfl | rfl | rfl) <;> exact absurd h (by decide)
  · rintro rfl
    exact absurd h (by decide)
  · rintro rfl
    exact absurd h (by decide)

theorem parseSign_of_digit {s : List Char} (h : ch.isDigit) :
    parseSign (ch :: s) = (false, ch :: s) := by
  refine parseSign.eq_3 _ ?_ ?_
  · rintro s' hs
    exact (isspace_of_isDigit h).2.1 (cons_eq_cons.mp hs).1
  · rintro s' hs
    exact (isspace_of_isDigit h).2.2 (cons_eq_cons.mp hs).1

theorem dropWhile_blanks (n : Nat) (s : List Char) :
    (List.replicate n ' ' ++ s).dropWhile isspace = s.dropWhile isspace := by
  induction n with
  | zero => rfl
  | succ n ih => exact ih

/-- The white space and the sign of a text. -/
theorem parseSign_shape (shape : Shape) : parseSign (shape.text.dropWhile isspace) =
    (decide (shape.sign = some '-'), shape.digits ++ List.replicate shape.right ' ') := by
  obtain ⟨ch, ds, hds⟩ := exists_cons_of_ne_nil shape.nonempty
  have hdigit : ch.isDigit := shape.isDigit ch (by rw [hds]; exact mem_cons_self)
  -- what `atoi` sees once it has skipped the blanks and a sign
  have hplain : parseSign ((shape.digits ++ List.replicate shape.right ' ').dropWhile isspace) =
      (false, shape.digits ++ List.replicate shape.right ' ') := by
    rw [hds, cons_append, dropWhile_cons_of_neg (isspace_of_isDigit hdigit).1,
      parseSign_of_digit hdigit]
  rw [Shape.text, dropWhile_blanks]
  cases hsign : shape.sign with
  | none => exact hplain
  | some x =>
    have hx := shape.isSign x hsign
    simp only [mem_cons, not_mem_nil, or_false] at hx
    rcases hx with rfl | rfl | rfl
    · rfl
    · rfl
    · exact hplain

theorem accumulate_shape (shape : Shape) (h : decimal shape.digits ≤ 2 ^ 31) :
    accumulate (shape.digits ++ List.replicate shape.right ' ') 0 =
      .ok (-(decimal shape.digits : Int)) := by
  refine accumulate_digits shape.isDigit ?_ 0 h
  intro ch hch
  rw [List.head?_replicate] at hch
  split_ifs at hch
  · exact absurd hch (Option.not_mem_none ch)
  · obtain rfl : ' ' = ch := Option.some.inj hch
    decide

/-- `atoi` reads a text as its number, if that fits into an `int`. -/
theorem atoi_shape (shape : Shape) (h : -2 ^ 31 ≤ shape.value) (h' : shape.value < 2 ^ 31) :
    atoi shape.text = .ok shape.value := by
  rw [Shape.value] at h h' ⊢
  rw [atoi, parseSign_shape]
  dsimp only
  by_cases hneg : shape.sign = some '-'
  · rw [if_pos hneg] at h h' ⊢
    rw [accumulate_shape shape (by omega), decide_eq_true hneg]
    rfl
  · rw [if_neg hneg] at h h' ⊢
    rw [accumulate_shape shape (by omega), decide_eq_false hneg]
    change inInt (-(-(decimal shape.digits : Int))) = _
    rw [neg_neg]
    exact inInt_of_range h h'

/-! ## What `%d` prints -/

/-- The digits of base 10 are the decimal digits. -/
theorem idxOf?_of_isDigit (h : ch.isDigit) :
    baseD.digits.idxOf? ch = some (ch.toNat - 48) := by
  simp only [Char.isDigit, ge_iff_le, UInt32.le_iff_toNat_le, Bool.and_eq_true,
    decide_eq_true_eq] at h
  obtain ⟨hlow, hhigh⟩ : 48 ≤ ch.toNat ∧ ch.toNat ≤ 57 := h
  have hch : ch = Char.ofNat ch.toNat := (Char.ofNat_toNat ch).symm
  generalize ch.toNat = n at hlow hhigh hch
  subst hch
  interval_cases n <;> decide

theorem isDigit_of_mem (h : ch ∈ baseD.digits) : ch.isDigit := by
  have hall : baseD.digits.all Char.isDigit = true := by decide
  exact all_eq_true.mp hall ch h

/-- Two ways to read digits. -/
theorem decimal_eq_numberOf {ds : List Char} (hds : ∀ ch ∈ ds, ch.isDigit) :
    decimal ds = numberOf baseD ds := by
  induction ds using List.reverseRecOn with
  | nil => rfl
  | append_singleton ds ch ih =>
    have hch : ch.isDigit := hds ch (by simp)
    have hvalue : digitValues baseD [ch] = [ch.toNat - 48] := by
      exact filterMap_cons_some (f := fun ch => baseD.digits.idxOf? ch) (idxOf?_of_isDigit hch)
    have ih := ih fun ch' h' => hds ch' (mem_append_left _ h')
    rw [decimal, foldl_append]
    change decimal ds * 10 + (ch.toNat - 48) = _
    rw [ih, numberOf, numberOf, digitValues_append, hvalue, reverse_append,
      reverse_singleton, singleton_append, Nat.ofDigits_cons, add_comm, mul_comm]
    rfl

/-- Without the `'` flag there is nothing but digits in the buffer. -/
theorem isDigit_bufferOf (value : UInt64) (hgroup : c.flags.group = false) :
    ∀ ch ∈ bufferOf value baseD c, ch.isDigit := by
  obtain ⟨zeros, hbuffer, -⟩ := bufferOf_eq isBase_baseD value c
  intro ch hch
  rw [hbuffer, hgroup, separated_false, mem_append, mem_reverse] at hch
  rcases hch with hch | hch
  · rw [eq_of_mem_replicate hch]
    decide
  · obtain ⟨d, hd, rfl⟩ := mem_map.1 hch
    exact isDigit_of_mem (digitChar_mem isBase_baseD d (Nat.digits_lt_base (by decide) hd))

/-- Without a precision the buffer is not empty. -/
theorem bufferOf_ne_nil (value : UInt64) (hprec : c.precision < 0) :
    bufferOf value baseD c ≠ [] := by
  obtain ⟨zeros, hbuffer, -, hzeros⟩ := bufferOf_eq isBase_baseD value c
  intro hnil
  rw [hbuffer, append_eq_nil_iff, reverse_eq_nil_iff, separated_eq_nil_iff,
    digitsOf_eq_nil_iff, toNat_eq_zero_iff] at hnil
  rw [hzeros hprec, if_pos (Or.inl hnil.2)] at hnil
  exact absurd hnil.1 (cons_ne_nil _ _)

/-- The text of `%d` without the `'` flag and without a precision. -/
theorem signedText_shape (hgroup : c.flags.group = false) (hprec : c.precision < 0) (w : UInt64) :
    ∃ shape : Shape, signedText c w = shape.text ∧ shape.value = (signedArg c.type w).toInt := by
  have hx : xChar (magnitude (signedArg c.type w)) baseD c.flags = none := by
    rw [xChar]
    split_ifs <;> rfl
  have hneg : signedArg c.type w < 0 ↔ (signedArg c.type w).toInt < 0 := Int64.lt_iff_toInt_lt
  rw [signedText, integerOut, integerText_eq, hx]
  generalize padCnt c.width (bufferOf (magnitude (signedArg c.type w)) baseD c).length none
    (signChar true (signedArg c.type w < 0) c.flags) = pad
  have hdigits : ∀ ch ∈ List.replicate (if c.flags.zero then pad else 0) '0' ++
      bufferOf (magnitude (signedArg c.type w)) baseD c, ch.isDigit := by
    intro ch hch
    rcases mem_append.mp hch with hch | hch
    · rw [eq_of_mem_replicate hch]
      decide
    · exact isDigit_bufferOf (magnitude (signedArg c.type w)) hgroup ch hch
  refine ⟨{
    left := if !c.flags.minus && !c.flags.zero then pad else 0
    right := if c.flags.minus then pad else 0
    sign := signChar true (signedArg c.type w < 0) c.flags
    digits := List.replicate (if c.flags.zero then pad else 0) '0' ++
      bufferOf (magnitude (signedArg c.type w)) baseD c
    isSign := signChar_mem true _ c.flags
    isDigit := hdigits
    nonempty := ?_ }, ?_, ?_⟩
  · exact fun h => bufferOf_ne_nil _ hprec (append_eq_nil_iff.mp h).2
  · simp only [Shape.text, frontOf, Option.isSome_none, Bool.false_eq_true, if_false,
      Option.toList_none, nil_append, append_assoc]
  · simp only [Shape.value, decimal_eq_numberOf hdigits, numberOf_zeros isBase_baseD,
      numberOf_bufferOf isBase_baseD, toNat_magnitude, signChar_eq_minus_iff, true_and,
      decide_eq_true_eq, hneg]
    split_ifs <;> omega

/-- Flags without `'`. -/
theorem group_of_flags {fs : List Char} (hfs : ∀ ch ∈ fs, ch ∈ ['-', '+', ' ', '0']) (f : Flags) :
    (parseFlags fs f).1.group = f.group := by
  induction fs generalizing f with
  | nil => rfl
  | cons ch fs ih =>
    have ih := ih fun ch' h => hfs ch' (mem_cons_of_mem _ h)
    have hch := hfs ch mem_cons_self
    simp only [mem_cons, not_mem_nil, or_false] at hch
    rcases hch with rfl | rfl | rfl | rfl
    · exact ih _
    · exact ih _
    · exact ih _
    · exact ih _

/-! ## The string in the buffer -/

theorem stringAt_stored {s : List Char} (hs : '\x00' ∉ s) {n : Nat} (hn : s.length < n)
    (buffer : Nat → Char) : stringAt (stored buffer s) n = s := by
  obtain ⟨k, rfl⟩ := Nat.exists_eq_add_of_lt hn
  have hfront : (List.range s.length).map (stored buffer s) = s := by
    refine ext_getElem (by simp) fun i hi hi' => ?_
    rw [getElem_map, getElem_range, stored, if_pos hi',
      getD_eq_getElem?_getD, List.getElem?_eq_getElem hi', Option.getD_some]
  have hend : stored buffer s s.length = '\x00' := by
    rw [stored, if_neg (lt_irrefl _), if_pos rfl]
  have hsplit : (List.range (s.length + k + 1)).map (stored buffer s) =
      s ++ '\x00' :: ((List.range k).map fun i => stored buffer s (s.length + (i + 1))) := by
    rw [add_assoc, range_add, map_append, hfront, range_succ_eq_map]
    simp only [map_cons, map_map, add_zero, hend]
    rfl
  rw [stringAt, hsplit, takeWhile_append_of_pos]
  · rw [takeWhile_cons_of_neg (by decide), append_nil]
  · exact fun ch hch => decide_eq_true fun h => hs (h ▸ hch)

/-- No character of a number is the terminator. -/
theorem Shape.terminator_not_mem (shape : Shape) : '\x00' ∉ shape.text := by
  simp only [Shape.text, mem_append, mem_replicate, Option.mem_toList, not_or]
  refine ⟨fun h => absurd h.2 (by decide), fun h => ?_, fun h => ?_,
    fun h => absurd h.2 (by decide)⟩
  · exact absurd (shape.isSign _ h) (by decide)
  · exact absurd (shape.isDigit _ h) (by decide)

/-! ## The round trip -/

/-- For every `int`, flags among `-`, `+`, blank and `0`, and every width: when `snprintf` is given
room for the whole text of `%d`, `atoi` of what it leaves in the buffer returns the value, and no
value in `atoi` leaves the range of `int`. -/
theorem atoi_snprintf (spec : Spec) (hflags : ∀ ch ∈ spec.flags, ch ∈ ['-', '+', ' ', '0'])
    (hprec : spec.precision = none) (hmodifier : spec.modifier = .int)
    (hconversion : spec.conversion = 'd') (mem : Memory) (args : VaList) :
    ∃ text, Emits (printed mem ('%' :: spec.text) args) text (.ok ()) ∧
      ∀ (buffer : Nat → Char) (bufSize : UInt64), text.length < bufSize.toNat →
        bufSize.toNat ≤ 2 ^ 31 →
        ∃ after, vsnprintf buffer bufSize mem ('%' :: spec.text) args =
            .ok (Int32.ofNat text.length, after) ∧
          atoi (stringAt after bufSize.toNat) = .ok (vaInt args).toInt := by
  have hemits := spec.emits_output mem args
  have hgroup : spec.parsed.flags.group = false := by
    have hwritten : spec.written.group = false := group_of_flags hflags {}
    simp only [Spec.parsed, normalise]
    split_ifs <;> exact hwritten
  have hnone : spec.parsed.precision < 0 := by
    simp only [Spec.parsed, hprec, precisionValue]
    decide
  obtain ⟨shape, htext, hvalue⟩ := signedText_shape hgroup hnone (args 0)
  have houtput : spec.output mem args = shape.text := by
    rw [Spec.output, conversionText_signed (by rw [hconversion]; rfl), htext]
  have hint : shape.value = (vaInt args).toInt := by
    rw [hvalue]
    change (signedArg spec.modifier (args 0)).toInt = _
    rw [hmodifier]
    exact Int32.toInt_toInt64 _
  rw [houtput] at hemits
  refine ⟨shape.text, hemits, fun buffer bufSize hroom hsize => ?_⟩
  have hne : ¬ bufSize = 0 := by
    rintro rfl
    exact Nat.not_lt_zero _ hroom
  refine ⟨_, vsnprintf_eq hemits (by omega) hsize buffer, ?_⟩
  rw [if_neg hne, take_of_length_le (by omega), stringAt_stored shape.terminator_not_mem hroom,
    ← hint]
  refine atoi_shape shape ?_ ?_
  · rw [hint]
    exact (vaInt args).le_toInt
  · rw [hint]
    exact (vaInt args).toInt_lt

/-- `%d` of the most negative `int`, in a buffer that just has room for it. -/
theorem atoi_snprintf_mostNegative :
    ∃ after, vsnprintf (fun _ => 'z') 12 blank "%d".toList (fun _ => 0x80000000) =
        .ok (11, after) ∧ atoi (stringAt after 12) = .ok (-2147483648) := by
  obtain ⟨text, hemits, hround⟩ := atoi_snprintf
    (Spec.plain .int 'd' (by unfold IsConversion; decide)) (fun _ h => absurd h not_mem_nil)
    rfl rfl rfl blank fun _ => 0x80000000
  have hlength : text.length = 11 := by
    have hcollect : printed blank "%d".toList (fun _ => 0x80000000) (List Char) collect [] =
        .ok ((), "-2147483648".toList) := by decide +kernel
    obtain rfl : text = "-2147483648".toList := by
      simpa using hemits.collect.symm.trans hcollect
    decide
  obtain ⟨after, hrun, hatoi⟩ := hround (fun _ => 'z') 12 (by rw [hlength]; decide) (by decide)
  rw [hlength] at hrun
  exact ⟨after, hrun, hatoi⟩

end Pintos.LibC.StdlibAtoi
