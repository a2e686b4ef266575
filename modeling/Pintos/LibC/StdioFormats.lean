import Pintos.LibC.StdioNumerals

/-!
# Formats and their terminator

Which formats `__vprintf` reads to their end. The parser of a conversion stops at the terminator
whatever it is looking at, but the loop then steps over the character where it stopped, so a
conversion that is cut off by the terminator makes the loop go on behind the format. `WellEnded`
describes the formats in which that does not happen: every conversion has a character after its
options. In these the loop ends, and what it hands to the callback is a list of characters that does
not depend on the callback.
-/

set_option autoImplicit false

namespace Pintos.LibC.StdioFormats

open Lib.StateExcept Lib.Emission LibC.Stdio StdioNumerals List

/-! ## Options -/

/-- The flag characters. -/
def isFlag (ch : Char) : Bool := ch ∈ ['-', '+', ' ', '#', '0', '\'']

/-- What follows a field width. -/
def dropWidth : List Char → List Char
  | '*' :: s => s
  | s => s.dropWhile Char.isDigit

/-- What follows a precision. -/
def dropPrecision : List Char → List Char
  | '.' :: '*' :: s => s
  | '.' :: s => s.dropWhile Char.isDigit
  | s => s

/-- What follows a length modifier. -/
def dropType : List Char → List Char
  | 'h' :: 'h' :: s => s
  | 'l' :: 'l' :: s => s
  | 'h' :: s => s
  | 'j' :: s => s
  | 'l' :: s => s
  | 't' :: s => s
  | 'z' :: s => s
  | s => s

/-- What follows the options of a conversion: its conversion character, and the rest. -/
def skipOptions (s : List Char) : List Char :=
  dropType (dropPrecision (dropWidth (s.dropWhile isFlag)))

/-- Formats in which no conversion is cut off by the terminator. -/
inductive WellEnded : List Char → Prop where
  | nil : WellEnded []
  | literal {ch : Char} {s : List Char} : ch ≠ '%' → WellEnded s → WellEnded (ch :: s)
  | percent {s : List Char} : WellEnded s → WellEnded ('%' :: '%' :: s)
  | conversion {s rest : List Char} {ch : Char} : s.head? ≠ some '%' → skipOptions s = ch :: rest →
      WellEnded rest → WellEnded ('%' :: s)

theorem parseFlags_rest (s : List Char) (f : Flags) : (parseFlags s f).2 = s.dropWhile isFlag := by
  fun_induction parseFlags s f with
  | case1 f s ih => exact ih
  | case2 f s ih => exact ih
  | case3 f s ih => exact ih
  | case4 f s ih => exact ih
  | case5 f s ih => exact ih
  | case6 f s ih => exact ih
  | case7 s f h1 h2 h3 h4 h5 h6 =>
    cases s with
    | nil => rfl
    | cons ch s =>
      have hno : ¬ isFlag ch = true := by
        simp only [isFlag, mem_cons, not_mem_nil, or_false, decide_eq_true_eq]
        rintro (rfl | rfl | rfl | rfl | rfl | rfl)
        · exact h1 s rfl
        · exact h2 s rfl
        · exact h3 s rfl
        · exact h4 s rfl
        · exact h5 s rfl
        · exact h6 s rfl
      rw [dropWhile_cons_of_neg hno]

theorem parseDigits_rest (s : List Char) (n : Int32) :
    (parseDigits s n).2 = s.dropWhile Char.isDigit := by
  induction s generalizing n with
  | nil => rfl
  | cons ch s ih =>
    rw [parseDigits, dropWhile_cons]
    split_ifs
    · exact ih _
    · rfl

theorem parseWidth_rest (mem : Memory) (s : List Char) : (parseWidth mem s).2 = dropWidth s := by
  fun_cases parseWidth mem s with
  | case1 s => rfl
  | case2 s h =>
    rw [dropWidth.eq_2 s h]
    exact parseDigits_rest s 0

theorem parsePrecision_rest (mem : Memory) (s : List Char) :
    (parsePrecision mem s).2 = dropPrecision s := by
  fun_cases parsePrecision mem s with
  | case1 s => rfl
  | case2 s h =>
    rw [dropPrecision.eq_2 s h]
    exact parseDigits_rest s 0
  | case3 s h h' => rw [dropPrecision.eq_3 s h h']

theorem parseType_rest (s : List Char) : (parseType s).2 = dropType s := by
  fun_cases parseType s with
  | case1 s => rfl
  | case2 s h => rw [dropType.eq_3 s h]
  | case3 s => rfl
  | case4 s => rfl
  | case5 s h => rw [dropType.eq_5 s h]
  | case6 s => rfl
  | case7 s => rfl
  | case8 s h1 h2 h3 h4 h5 h6 h7 => rw [dropType.eq_8 s h1 h4 h2 h3 h5 h6 h7]

/-- The parser stops behind the options, whatever it reads for a `*`. -/
theorem parseConversion_rest (mem : Memory) (s : List Char) :
    (parseConversion mem s).2 = skipOptions s := by
  change (parseType (parsePrecision mem (parseWidth mem (parseFlags s {}).2).2).2).2 = _
  rw [parseType_rest, parsePrecision_rest, parseWidth_rest, parseFlags_rest, skipOptions]

theorem length_dropType_le (s : List Char) : (dropType s).length ≤ s.length := by
  unfold dropType
  split <;> first | exact le_rfl | (simp only [length_cons]; omega)

theorem length_dropPrecision_le (s : List Char) : (dropPrecision s).length ≤ s.length := by
  unfold dropPrecision
  split
  · simp only [length_cons]
    omega
  · have := (dropWhile_sublist (l := ‹List Char›) Char.isDigit).length_le
    simp only [length_cons]
    omega
  · exact le_rfl

theorem length_dropWidth_le (s : List Char) : (dropWidth s).length ≤ s.length := by
  unfold dropWidth
  split
  · simp only [length_cons]
    omega
  · exact (dropWhile_sublist _).length_le

theorem length_skipOptions_le (s : List Char) : (skipOptions s).length ≤ s.length :=
  calc (skipOptions s).length ≤ (dropPrecision (dropWidth (s.dropWhile isFlag))).length :=
        length_dropType_le _
    _ ≤ (dropWidth (s.dropWhile isFlag)).length := length_dropPrecision_le _
    _ ≤ (s.dropWhile isFlag).length := length_dropWidth_le _
    _ ≤ s.length := (dropWhile_sublist _).length_le

/-! ## Conversions -/

/-- The characters in the buffer of `format_integer`. -/
def bufferOf (value : UInt64) (b : IntegerBase) (c : PrintfConversion) : List Char :=
  (digitBuffer value b c).toOption.getD []

theorem digitBuffer_bufferOf {b : IntegerBase} (hb : IsBase b) (value : UInt64)
    (c : PrintfConversion) : digitBuffer value b c = .ok (bufferOf value b c) := by
  obtain ⟨zeros, hbuf, -⟩ := digitBuffer_eq hb value c
  rw [bufferOf, hbuf]
  rfl

/-- The buffer holds zeros and the digits of the value. -/
theorem bufferOf_eq {b : IntegerBase} (hb : IsBase b) (value : UInt64) (c : PrintfConversion) :
    ∃ zeros, bufferOf value b c = List.replicate zeros '0' ++
        (separated c.flags.group b.group 0 (digitsOf b value.toNat)).reverse ∧
      (bufferOf value b c).length ≤ 64 ∧
      (c.precision < 0 → zeros = if value = 0 ∨ (c.flags.pound ∧ b.base = 8) then 1 else 0) := by
  obtain ⟨zeros, hbuf, hlen, hzeros⟩ := digitBuffer_eq hb value c
  have heq := Except.ok.inj ((digitBuffer_bufferOf hb value c).symm.trans hbuf)
  refine ⟨zeros, heq, ?_, hzeros⟩
  rw [heq, length_append, length_replicate, length_reverse]
  exact hlen

/-- The characters of an integer conversion. -/
def integerOut (value : UInt64) (isSigned negative : Bool) (b : IntegerBase)
    (c : PrintfConversion) : List Char :=
  integerText c (signChar isSigned negative c.flags) (xChar value b c.flags) (bufferOf value b c)

theorem emits_integerOut {b : IntegerBase} (hb : IsBase b) (value : UInt64)
    (isSigned negative : Bool) (c : PrintfConversion) :
    Emits (fun _ output => formatInteger output value isSigned negative b c)
      (integerOut value isSigned negative b c) (.ok ()) :=
  emits_formatInteger (digitBuffer_bufferOf hb value c) isSigned negative

/-- The magnitude of a signed argument. -/
def magnitude (value : Int64) : UInt64 := (if value < 0 then -value else value).toUInt64

/-- The base of an unsigned conversion. -/
def unsignedBase (ch : Char) : IntegerBase :=
  if ch = 'o' then baseO else if ch = 'u' then baseD
  else if ch = 'x' then baseLowerX else baseUpperX

theorem isBase_unsignedBase (ch : Char) : IsBase (unsignedBase ch) := by
  unfold unsignedBase
  split_ifs <;> simp [IsBase]

theorem isBase_baseD : IsBase baseD := by simp [IsBase]

theorem isBase_baseLowerX : IsBase baseLowerX := by simp [IsBase]

/-- The characters of the conversions `d` and `i`. -/
def signedText (c : PrintfConversion) (w : UInt64) : List Char :=
  integerOut (magnitude (signedArg c.type w)) true (signedArg c.type w < 0) baseD c

/-- The characters of the conversions `o`, `u`, `x` and `X`. -/
def unsignedText (ch : Char) (c : PrintfConversion) (w : UInt64) : List Char :=
  integerOut (unsignedArg c.type w) false false (unsignedBase ch) c

/-- The characters of the conversion `c`. -/
def charText (c : PrintfConversion) (w : UInt64) : List Char :=
  stringText (fun _ => Char.ofNat w.toUInt8.toNat) 1 c

/-- The characters of the conversion `s`. -/
def stringOut (mem : Memory) (c : PrintfConversion) (w : UInt64) : List Char :=
  stringText (stringArg mem w) (Int32.ofNat (strnlen (stringArg mem w) (sizeT c.precision))) c

/-- The characters of a conversion that takes one argument. -/
def conversionText (mem : Memory) (ch : Char) (c : PrintfConversion) (w : UInt64) : List Char :=
  if ch = 'd' ∨ ch = 'i' then signedText c w
  else if ch = 'c' then charText c w
  else if ch = 's' then stringOut mem c w
  else unsignedText ch c w

/-- The conversions for integers, characters and strings. -/
def IsConversion (ch : Char) : Prop := ch ∈ ['d', 'i', 'o', 'u', 'x', 'X', 'c', 's']

section Convert

variable {mem : Memory} {c : PrintfConversion} {args : VaList}
  {message : String → Char → Writer Char Fault Unit}

theorem emits_formatSigned (c : PrintfConversion) (args : VaList) :
    Emits (fun _ output => formatSigned output c args) (signedText c (args 0)) (.ok ()) :=
  emits_integerOut isBase_baseD _ _ _ c

theorem emits_formatUnsigned (ch : Char) (c : PrintfConversion) (args : VaList) :
    Emits (fun _ output => formatUnsigned output (unsignedBase ch) c args)
      (unsignedText ch c (args 0)) (.ok ()) :=
  emits_integerOut (isBase_unsignedBase ch) _ _ _ c

/-- A statement of the `switch` that takes one argument. -/
theorem Emits.take {x : Writer Char Fault Unit} {text : List Char} (h : Emits x text (.ok ()))
    (args : VaList) : Emits (fun σ output => x σ output >>= fun _ => pure args) text
    (.ok args) := by
  have := h.bind (f := fun _ _ _ => pure args) (emits_pure args)
  rwa [append_nil] at this

/-- A conversion for an integer, a character or a string. -/
theorem emits_convert {ch : Char} (hch : IsConversion ch) :
    Emits (fun σ output => convert output mem (fun text ch => message text ch σ output) ch c args)
      (conversionText mem ch c (args 0)) (.ok args.tail) := by
  simp only [IsConversion, mem_cons, not_mem_nil, or_false] at hch
  rcases hch with rfl | rfl | rfl | rfl | rfl | rfl | rfl | rfl
  · exact Emits.take (emits_formatSigned c args) args.tail
  · exact Emits.take (emits_formatSigned c args) args.tail
  · exact Emits.take (emits_formatUnsigned 'o' c args) args.tail
  · exact Emits.take (emits_formatUnsigned 'u' c args) args.tail
  · exact Emits.take (emits_formatUnsigned 'x' c args) args.tail
  · exact Emits.take (emits_formatUnsigned 'X' c args) args.tail
  · exact Emits.take (emits_formatString _ 1 c) args.tail
  · exact Emits.take (emits_formatString _ _ c) args.tail

/-- The conversions that the kernel does not have. -/
def IsMissing (ch : Char) : Prop := ch ∈ ['f', 'e', 'E', 'g', 'G', 'n']

theorem convert_missing {σ : Type} {output : Char → Comp σ Fault Unit}
    {message : String → Char → Comp σ Fault Unit} {ch : Char} (hch : IsMissing ch) :
    convert output mem message ch c args =
      (message "<<no %%%c in kernel>>" ch >>= fun _ => pure args) := by
  simp only [IsMissing, mem_cons, not_mem_nil, or_false] at hch
  rcases hch with rfl | rfl | rfl | rfl | rfl | rfl <;> rfl

theorem convert_unknown {σ : Type} {output : Char → Comp σ Fault Unit}
    {message : String → Char → Comp σ Fault Unit} {ch : Char} (hch : ¬ IsConversion ch)
    (hp : ch ≠ 'p') (hmissing : ¬ IsMissing ch) :
    convert output mem message ch c args =
      (message "<<no %%%c conversion>>" ch >>= fun _ => pure args) := by
  simp only [IsConversion, IsMissing, mem_cons, not_mem_nil, or_false, not_or]
    at hch hmissing
  unfold convert
  split
  all_goals first | rfl | simp_all only [not_true_eq_false, ne_eq, and_false, false_and]

/-- Every conversion emits some text, when the messages do. -/
theorem exists_emits_convert (mem : Memory) (c : PrintfConversion) (args : VaList)
    (message : String → Char → Writer Char Fault Unit) (hmessage : ∀ ch,
      (∃ text, Emits (message "<<no %%%c in kernel>>" ch) text (.ok ())) ∧
      ∃ text, Emits (message "<<no %%%c conversion>>" ch) text (.ok ())) (ch : Char) :
    ∃ text rest, Emits (fun σ output =>
      convert output mem (fun text ch => message text ch σ output) ch c args) text (.ok rest) := by
  by_cases hch : IsConversion ch
  · exact ⟨_, _, emits_convert hch⟩
  by_cases hp : ch = 'p'
  · subst hp
    exact ⟨_, _, Emits.take (emits_integerOut isBase_baseLowerX _ _ _ _) args.tail⟩
  by_cases hmissing : IsMissing ch
  · obtain ⟨text, htext⟩ := (hmessage ch).1
    refine ⟨text, args, ?_⟩
    simp only [convert_missing hmissing]
    exact Emits.take htext args
  · obtain ⟨text, htext⟩ := (hmessage ch).2
    refine ⟨text, args, ?_⟩
    simp only [convert_unknown hch hp hmissing]
    exact Emits.take htext args

end Convert

/-! ## The loop -/

section Loop

variable (mem : Memory)

/-- The loop of `__vprintf` as a writer. -/
def loop (fuel : Nat) (s : List Char) (args : VaList) : Writer Char Fault Unit :=
  fun _ output => vprintfFrom output mem fuel s args

variable {mem} {fuel : Nat} {s text : List Char} {args : VaList} {r : Except Fault Unit}

theorem emits_loop_nil (mem : Memory) (fuel : Nat) (args : VaList) :
    Emits (loop mem (fuel + 1) [] args) [] (.ok ()) := emits_pure ()

theorem emits_loop_percent (h : Emits (loop mem fuel s args) text r) :
    Emits (loop mem (fuel + 1) ('%' :: '%' :: s) args) ('%' :: text) r := h.cons

theorem emits_loop_literal {ch : Char} (hch : ch ≠ '%') (h : Emits (loop mem fuel s args) text r) :
    Emits (loop mem (fuel + 1) (ch :: s) args) (ch :: text) r := by
  intro σ output
  refine Eq.trans ?_ (h.cons σ output)
  exact vprintfFrom.eq_5 _ _ _ _ _ _ (fun s h _ => hch h) hch

/-- The characters before a conversion are emitted as they are. -/
theorem emits_loop_literals {front : List Char} (hfront : '%' ∉ front)
    (h : Emits (loop mem fuel s args) text r) :
    Emits (loop mem (fuel + front.length) (front ++ s) args) (front ++ text) r := by
  induction front with
  | nil => exact h
  | cons ch front ih =>
    simp only [mem_cons, not_or] at hfront
    exact emits_loop_literal (Ne.symm hfront.1) (ih hfront.2)

/-- One conversion, and the loop after it. -/
theorem loop_conversion (hs : s.head? ≠ some '%') :
    loop mem (fuel + 1) ('%' :: s) args = fun σ output =>
      (convert output mem (fun text ch => loop mem fuel text.toList (charArgs ch) σ output)
        ((skipOptions s).headD '\x00') (parseConversion mem s).1 args >>=
      fun args => match skipOptions s with
        | [] => throw .pastFormat
        | _ :: s => loop mem fuel s args σ output) := by
  funext σ output
  rw [← parseConversion_rest mem s]
  refine vprintfFrom.eq_4 _ _ _ _ _ ?_
  rintro s' rfl
  exact hs rfl

/-- A conversion whose character is there. -/
theorem emits_loop_conversion {rest converted : List Char} {ch : Char} {args' : VaList}
    (hs : s.head? ≠ some '%') (hrest : skipOptions s = ch :: rest)
    (hconvert : Emits (fun σ output => convert output mem
        (fun text ch => loop mem fuel text.toList (charArgs ch) σ output) ch
        (parseConversion mem s).1 args) converted (.ok args'))
    (h : Emits (loop mem fuel rest args') text r) :
    Emits (loop mem (fuel + 1) ('%' :: s) args) (converted ++ text) r := by
  rw [loop_conversion hs, hrest]
  exact hconvert.bind (f := fun args => loop mem fuel rest args) h

/-- A conversion that is cut off. -/
theorem emits_loop_cut {converted : List Char} {args' : VaList}
    (hs : s.head? ≠ some '%') (hrest : skipOptions s = [])
    (hconvert : Emits (fun σ output => convert output mem
        (fun text ch => loop mem fuel text.toList (charArgs ch) σ output) '\x00'
        (parseConversion mem s).1 args) converted (.ok args')) :
    Emits (loop mem (fuel + 1) ('%' :: s) args) converted (.error .pastFormat) := by
  rw [loop_conversion hs, hrest]
  have := hconvert.bind (f := fun _ _ _ => throw .pastFormat)
    (emits_throw (α := Unit) Fault.pastFormat)
  rwa [append_nil] at this

/-! ## Messages -/

/-- A message names the conversion between two literal texts. -/
theorem exists_emits_message (front back : List Char) (hfront : '%' ∉ front) (hback : '%' ∉ back)
    (hfuel : front.length + back.length + 3 ≤ fuel) (args : VaList) :
    ∃ text, Emits (loop mem fuel (front ++ '%' :: '%' :: '%' :: 'c' :: back) args)
      text (.ok ()) := by
  obtain ⟨k, rfl⟩ := Nat.exists_eq_add_of_le hfuel
  have hend : Emits (loop mem (k + 1 + back.length) back args.tail) back (.ok ()) := by
    have := emits_loop_literals hback (emits_loop_nil mem k args.tail)
    simpa only [append_nil] using this
  have hhead : ('c' :: back).head? ≠ some '%' := by simp
  have hconvert := @emits_loop_conversion mem _ ('c' :: back) _ args _ back _ 'c' _ hhead rfl
    (emits_convert (by simp [IsConversion])) hend
  have hall := emits_loop_literals hfront (emits_loop_percent hconvert)
  rw [show k + 1 + back.length + 1 + 1 + front.length = front.length + back.length + 3 + k by omega]
    at hall
  exact ⟨_, hall⟩

/-- Both messages are printed, when the bound of the loop is large enough. -/
theorem exists_emits_messages (hfuel : 21 ≤ fuel) (ch : Char) :
    (∃ text, Emits (loop mem fuel "<<no %%%c in kernel>>".toList (charArgs ch)) text (.ok ())) ∧
      ∃ text, Emits (loop mem fuel "<<no %%%c conversion>>".toList (charArgs ch))
        text (.ok ()) := by
  have hkernel : "<<no %%%c in kernel>>".toList =
      "<<no ".toList ++ '%' :: '%' :: '%' :: 'c' :: " in kernel>>".toList := by decide
  have hconversion : "<<no %%%c conversion>>".toList =
      "<<no ".toList ++ '%' :: '%' :: '%' :: 'c' :: " conversion>>".toList := by decide
  rw [hkernel, hconversion]
  constructor
  · exact exists_emits_message _ _ (by decide) (by decide)
      (le_trans (by decide) hfuel) (charArgs ch)
  · exact exists_emits_message _ _ (by decide) (by decide)
      (le_trans (by decide) hfuel) (charArgs ch)

end Loop

/-! ## Formats that are read to their end -/

theorem wellEnded_literal_iff {ch : Char} {s : List Char} (hch : ch ≠ '%') :
    WellEnded (ch :: s) ↔ WellEnded s := by
  constructor
  · intro h
    cases h with
    | literal _ h => exact h
    | percent => exact absurd rfl hch
    | conversion => exact absurd rfl hch
  · exact WellEnded.literal hch

theorem wellEnded_percent_iff {s : List Char} : WellEnded ('%' :: '%' :: s) ↔ WellEnded s := by
  constructor
  · intro h
    cases h with
    | literal hch _ => exact absurd rfl hch
    | percent h => exact h
    | conversion hs _ _ => exact absurd rfl hs
  · exact WellEnded.percent

theorem wellEnded_conversion_iff {s : List Char} (hs : s.head? ≠ some '%') :
    WellEnded ('%' :: s) ↔ ∃ ch rest, skipOptions s = ch :: rest ∧ WellEnded rest := by
  constructor
  · intro h
    cases h with
    | literal hch _ => exact absurd rfl hch
    | percent => exact absurd rfl hs
    | conversion _ hrest h => exact ⟨_, _, hrest, h⟩
  · rintro ⟨ch, rest, hrest, h⟩
    exact .conversion hs hrest h

/-- How the loop ends: at the terminator when the format is well ended, behind it otherwise. -/
def Ends (mem : Memory) (fuel : Nat) (s : List Char) (args : VaList) : Prop :=
  (WellEnded s ∧ ∃ text, Emits (loop mem fuel s args) text (.ok ())) ∨
    ¬ WellEnded s ∧ ∃ text, Emits (loop mem fuel s args) text (.error .pastFormat)

section Ends

variable {mem : Memory} {fuel : Nat} {s rest : List Char} {args args' : VaList}

/-- A step of the loop that emits `front` and leaves `rest`. -/
theorem Ends.step (front : List Char) (h : Ends mem fuel rest args')
    (hiff : WellEnded s ↔ WellEnded rest)
    (hemits : ∀ text r, Emits (loop mem fuel rest args') text r →
      Emits (loop mem (fuel + 1) s args) (front ++ text) r) :
    Ends mem (fuel + 1) s args := by
  rcases h with ⟨hgood, text, h⟩ | ⟨hbad, text, h⟩
  · exact Or.inl ⟨hiff.mpr hgood, _, hemits text _ h⟩
  · exact Or.inr ⟨fun h => hbad (hiff.mp h), _, hemits text _ h⟩

/-- One conversion, given that the loop ends on every shorter format. -/
theorem ends_conversion (hfuel : 21 ≤ fuel) (hs : s.head? ≠ some '%')
    (ih : ∀ rest args, rest.length < s.length → Ends mem fuel rest args) :
    Ends mem (fuel + 1) ('%' :: s) args := by
  obtain ⟨converted, args', hconvert⟩ := exists_emits_convert mem (parseConversion mem s).1
    args (fun text ch => loop mem fuel text.toList (charArgs ch))
    (exists_emits_messages hfuel) ((skipOptions s).headD '\x00')
  have hlen := length_skipOptions_le s
  cases hrest : skipOptions s with
  | nil =>
    rw [hrest] at hconvert
    refine Or.inr ⟨?_, _, emits_loop_cut hs hrest hconvert⟩
    rw [wellEnded_conversion_iff hs, hrest]
    rintro ⟨ch, rest, h, -⟩
    exact absurd h.symm (cons_ne_nil ch rest)
  | cons ch rest =>
    rw [hrest] at hconvert hlen
    refine (ih rest args' hlen).step converted ?_ fun text r h =>
      emits_loop_conversion hs hrest hconvert h
    rw [wellEnded_conversion_iff hs, hrest]
    constructor
    · rintro ⟨ch, rest, h, hgood⟩
      cases h
      exact hgood
    · exact fun hgood => ⟨ch, rest, rfl, hgood⟩

/-- The loop ends on every format. -/
theorem ends_loop (n : Nat) (mem : Memory) (s : List Char) (hs : s.length = n) (fuel : Nat)
    (hfuel : n + 22 ≤ fuel) (args : VaList) : Ends mem fuel s args := by
  -- the bound goes down by one in each round, the format by at least one character
  induction n using Nat.strong_induction_on generalizing s fuel args with
  | _ n ih =>
    subst hs
    obtain ⟨fuel, rfl⟩ : ∃ k, fuel = k + 1 := ⟨fuel - 1, by omega⟩
    rcases s with _ | ⟨ch, s⟩
    · exact Or.inl ⟨.nil, _, emits_loop_nil mem fuel args⟩
    simp only [length_cons] at ih hfuel
    have hshort : ∀ rest args, rest.length ≤ s.length → Ends mem fuel rest args :=
      fun rest args h => ih _ (by omega) rest rfl fuel (by omega) args
    by_cases hch : ch = '%'
    · subst hch
      by_cases hhead : s.head? = some '%'
      · obtain ⟨s, rfl⟩ := List.head?_eq_some_iff.mp hhead
        refine (hshort s args (Nat.le_succ _)).step ['%'] wellEnded_percent_iff fun text r h => ?_
        exact emits_loop_percent h
      · exact ends_conversion (by omega) hhead fun rest args h => hshort rest args (by omega)
    · refine (hshort s args le_rfl).step [ch] (wellEnded_literal_iff hch) fun text r h => ?_
      exact emits_loop_literal hch h

end Ends

/-- `__vprintf` as a writer. -/
def printed (mem : Memory) (format : List Char) (args : VaList) : Writer Char Fault Unit :=
  fun _ output => vprintf output mem format args

theorem ends_printed (mem : Memory) (format : List Char) (args : VaList) :
    (WellEnded format ∧ ∃ text, Emits (printed mem format args) text (.ok ())) ∨
      ¬ WellEnded format ∧ ∃ text, Emits (printed mem format args) text (.error .pastFormat) :=
  ends_loop _ mem format rfl _ (by omega) args

/-- A memory of nothing but zeros. -/
def blank : Memory := ⟨fun _ => '\x00', fun _ => 0⟩

end Pintos.LibC.StdioFormats
