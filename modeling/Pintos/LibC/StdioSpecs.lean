import Pintos.LibC.StdioFormats

/-!
# Conversion specifications

The conversions of a format as a value: flags, a field width and a precision in digits, a length
modifier and the conversion character. `Spec.text` is how such a conversion is written after the
`%`. `parse_conversion` reads back what was written, whatever follows it (`Spec.parse_text`), so
`__vprintf` emits for the conversion exactly `Spec.output` (`Spec.emits_output`).
-/

set_option autoImplicit false

namespace Pintos.LibC.StdioSpecs

open Lib.Emission LibC.Stdio StdioFormats List

/-! ## The text of a conversion -/

/-- How a precision is written. -/
def precisionText : Option (List Char) → List Char
  | none => []
  | some ds => '.' :: ds

/-- The precision, where a negative one counts as none. -/
def precisionValue : Option (List Char) → Int32
  | none => -1
  | some ds => if (parseDigits ds 0).1 < 0 then -1 else (parseDigits ds 0).1

/-- How a length modifier is written. -/
def modifierText : ArgType → List Char
  | .char => ['h', 'h']
  | .short => ['h']
  | .int => []
  | .intmax => ['j']
  | .long => ['l']
  | .longlong => ['l', 'l']
  | .ptrdifft => ['t']
  | .sizet => ['z']

theorem isDigit_nil : ∀ ch ∈ ([] : List Char), ch.isDigit := forall_mem_nil _

theorem isDigit_none : ∀ ds ∈ (none : Option (List Char)), ∀ ch ∈ ds, ch.isDigit :=
  fun _ h => absurd h (Option.not_mem_none _)

theorem head?_nil_ne : ([] : List Char).head? ≠ some '0' := (Option.some_ne_none _).symm

/-- A conversion of an integer, a character or a string. -/
structure Spec where
  flags : List Char
  /-- The digits of the field width. -/
  width : List Char
  /-- The digits of the precision. -/
  precision : Option (List Char)
  modifier : ArgType
  conversion : Char
  isFlag_flags : ∀ ch ∈ flags, isFlag ch
  isDigit_width : ∀ ch ∈ width, ch.isDigit
  /-- A leading zero would be a flag. -/
  width_ne_zero : width.head? ≠ some '0'
  isDigit_precision : ∀ ds ∈ precision, ∀ ch ∈ ds, ch.isDigit
  isConversion : IsConversion conversion

namespace Spec

/-- A conversion with nothing but a length modifier. -/
def plain (modifier : ArgType) (conversion : Char) (h : IsConversion conversion) : Spec where
  flags := []
  width := []
  precision := none
  modifier := modifier
  conversion := conversion
  isFlag_flags := forall_mem_nil _
  isDigit_width := isDigit_nil
  width_ne_zero := head?_nil_ne
  isDigit_precision := isDigit_none
  isConversion := h

/-- The conversion as it is written after the `%`. -/
def text (spec : Spec) : List Char :=
  spec.flags ++ (spec.width ++ (precisionText spec.precision ++
    (modifierText spec.modifier ++ [spec.conversion])))

/-- The flags that are written. -/
def written (spec : Spec) : Flags := (parseFlags spec.flags {}).1

/-- What `parse_conversion` makes of the conversion. -/
def parsed (spec : Spec) : PrintfConversion :=
  let width := (parseDigits spec.width 0).1
  let precision := precisionValue spec.precision
  let flags := normalise spec.written
  let flags := if width < 0 then { flags with minus := true } else flags
  ⟨if precision ≥ 0 then { flags with zero := false } else flags,
    if width < 0 then -width else width, precision, spec.modifier⟩

/-- What the conversion emits. -/
def output (spec : Spec) (mem : Memory) (args : VaList) : List Char :=
  conversionText mem spec.conversion spec.parsed (args 0)

end Spec

/-! ## The parser reads back what was written -/

/-- Characters that end a run of flags and a field of digits. -/
def IsPlain (ch : Char) : Prop := ¬ isFlag ch ∧ ¬ ch.isDigit ∧ ch ≠ '*'

variable {s : List Char}

theorem parseFlags_of_not (hs : ∀ ch ∈ s.head?, ¬ isFlag ch) (f : Flags) :
    parseFlags s f = (f, s) := by
  fun_cases parseFlags s f with
  | case1 s f => exact absurd rfl (hs _ rfl)
  | case2 s f => exact absurd rfl (hs _ rfl)
  | case3 s f => exact absurd rfl (hs _ rfl)
  | case4 s f => exact absurd rfl (hs _ rfl)
  | case5 s f => exact absurd rfl (hs _ rfl)
  | case6 s f => exact absurd rfl (hs _ rfl)
  | case7 s f h1 h2 h3 h4 h5 h6 => rfl

theorem parseFlags_append {fs : List Char} (hfs : ∀ ch ∈ fs, isFlag ch)
    (hs : ∀ ch ∈ s.head?, ¬ isFlag ch) (f : Flags) :
    parseFlags (fs ++ s) f = ((parseFlags fs f).1, s) := by
  induction fs generalizing f with
  | nil => exact parseFlags_of_not hs f
  | cons ch fs ih =>
    have ih := ih fun ch' h => hfs ch' (mem_cons_of_mem _ h)
    have hch := hfs ch mem_cons_self
    simp only [isFlag, mem_cons, not_mem_nil, or_false, decide_eq_true_eq] at hch
    rcases hch with rfl | rfl | rfl | rfl | rfl | rfl <;> exact ih _

theorem parseDigits_append {ds : List Char} (hds : ∀ ch ∈ ds, ch.isDigit)
    (hs : ∀ ch ∈ s.head?, ¬ ch.isDigit) (n : Int32) :
    parseDigits (ds ++ s) n = ((parseDigits ds n).1, s) := by
  induction ds generalizing n with
  | nil =>
    cases s with
    | nil => rfl
    | cons ch s => exact if_neg (hs ch rfl)
  | cons ch ds ih =>
    have hch := hds ch mem_cons_self
    rw [cons_append, parseDigits, parseDigits, if_pos hch, if_pos hch]
    exact ih (fun ch' h => hds ch' (mem_cons_of_mem _ h)) _

/-- A field of digits, or what follows an empty one, does not begin with `*`. -/
theorem digits_append_ne {ds : List Char} (hds : ∀ ch ∈ ds, ch.isDigit)
    (hs : ∀ ch ∈ s.head?, IsPlain ch) (s' : List Char) : ds ++ s ≠ '*' :: s' := by
  intro h
  cases ds with
  | nil =>
    rw [nil_append] at h
    rw [h] at hs
    exact (hs '*' rfl).2.2 rfl
  | cons ch ds =>
    obtain ⟨rfl, -⟩ := cons_eq_cons.mp h
    exact absurd (hds '*' mem_cons_self) (by decide)

theorem parseWidth_append {ds : List Char} (hds : ∀ ch ∈ ds, ch.isDigit)
    (hs : ∀ ch ∈ s.head?, IsPlain ch) (mem : Memory) :
    parseWidth mem (ds ++ s) = ((parseDigits ds 0).1, s) := by
  rw [parseWidth.eq_2 _ _ (digits_append_ne hds hs),
    parseDigits_append hds fun ch h => (hs ch h).2.1]

theorem parsePrecision_append {p : Option (List Char)} (hp : ∀ ds ∈ p, ∀ ch ∈ ds, ch.isDigit)
    (hs : ∀ ch ∈ s.head?, IsPlain ch ∧ ch ≠ '.') (mem : Memory) :
    parsePrecision mem (precisionText p ++ s) = (precisionValue p, s) := by
  cases p with
  | none =>
    refine parsePrecision.eq_3 _ _ ?_ ?_
    · rintro s' rfl
      exact (hs '.' rfl).2 rfl
    · rintro s' rfl
      exact (hs '.' rfl).2 rfl
  | some ds =>
    have hds := hp ds rfl
    change parsePrecision mem ('.' :: (ds ++ s)) = _
    rw [parsePrecision.eq_2 _ _ (digits_append_ne hds fun ch h => (hs ch h).1),
      parseDigits_append hds fun ch h => (hs ch h).1.2.1]
    rfl

/-- The characters that can follow the precision. -/
theorem head_modifierText (m : ArgType) {ch : Char} (hch : IsConversion ch) (rest : List Char) :
    ∀ x ∈ (modifierText m ++ ch :: rest).head?, IsPlain x ∧ x ≠ '.' := by
  have hplain : ['h', 'j', 'l', 't', 'z', 'd', 'i', 'o', 'u', 'x', 'X', 'c', 's'].all
      (fun x => !isFlag x && !x.isDigit && x ≠ '*' && x ≠ '.') = true := by decide
  intro x hx
  suffices hmem : x ∈ ['h', 'j', 'l', 't', 'z', 'd', 'i', 'o', 'u', 'x', 'X', 'c', 's'] by
    have hx := all_eq_true.mp hplain x hmem
    simp only [Bool.and_eq_true, Bool.not_eq_true', decide_eq_true_eq] at hx
    obtain ⟨⟨⟨hflag, hdigit⟩, hstar⟩, hdot⟩ := hx
    exact ⟨⟨Bool.eq_false_iff.mp hflag, Bool.eq_false_iff.mp hdigit, hstar⟩, hdot⟩
  cases m with
  | int =>
    obtain rfl : ch = x := Option.some.inj hx
    simp only [IsConversion, mem_cons, not_mem_nil, or_false] at hch
    rcases hch with rfl | rfl | rfl | rfl | rfl | rfl | rfl | rfl <;> decide
  | _ =>
    obtain rfl := Option.some.inj hx
    decide

theorem head_precisionText (p : Option (List Char)) (hs : ∀ x ∈ s.head?, IsPlain x) :
    ∀ x ∈ (precisionText p ++ s).head?, IsPlain x := by
  cases p with
  | none => exact hs
  | some field =>
    intro x hx
    obtain rfl : '.' = x := Option.some.inj hx
    unfold IsPlain
    decide

theorem head_width {ds : List Char} (hds : ∀ ch ∈ ds, ch.isDigit) (hzero : ds.head? ≠ some '0')
    (hs : ∀ x ∈ s.head?, IsPlain x) : ∀ x ∈ (ds ++ s).head?, ¬ isFlag x := by
  intro x hx
  cases ds with
  | nil => exact (hs x hx).1
  | cons ch ds =>
    obtain rfl : ch = x := Option.some.inj hx
    have hdigit := hds ch mem_cons_self
    simp only [isFlag, mem_cons, not_mem_nil, or_false, decide_eq_true_eq]
    rintro (rfl | rfl | rfl | rfl | rfl | rfl)
    case inr.inr.inr.inr.inl => exact hzero rfl
    all_goals exact absurd hdigit (by decide)

theorem parseType_append (m : ArgType) {ch : Char} (hch : IsConversion ch) (rest : List Char) :
    parseType (modifierText m ++ ch :: rest) = (m, ch :: rest) := by
  simp only [IsConversion, mem_cons, not_mem_nil, or_false] at hch
  cases m <;> rcases hch with rfl | rfl | rfl | rfl | rfl | rfl | rfl | rfl <;> rfl

/-- `parse_conversion` reads back a conversion, whatever follows it. -/
theorem Spec.parse_text (spec : Spec) (mem : Memory) (rest : List Char) :
    parseConversion mem (spec.text ++ rest) = (spec.parsed, spec.conversion :: rest) := by
  have htype := head_modifierText spec.modifier spec.isConversion rest
  have hprec := head_precisionText spec.precision fun x hx => (htype x hx).1
  have hflags := head_width spec.isDigit_width spec.width_ne_zero hprec
  have htext : spec.text ++ rest = spec.flags ++ (spec.width ++ (precisionText spec.precision ++
      (modifierText spec.modifier ++ spec.conversion :: rest))) := by
    simp only [Spec.text, append_assoc, singleton_append]
  rw [htext, parseConversion, parseFlags_append spec.isFlag_flags hflags]
  dsimp only
  rw [parseWidth_append spec.isDigit_width hprec]
  rw [parsePrecision_append spec.isDigit_precision htype]
  rw [parseType_append spec.modifier spec.isConversion]
  rfl

theorem Spec.skipOptions_text (spec : Spec) (rest : List Char) :
    skipOptions (spec.text ++ rest) = spec.conversion :: rest := by
  rw [← parseConversion_rest blank, spec.parse_text]

theorem Spec.head_text (spec : Spec) (rest : List Char) : (spec.text ++ rest).head? ≠ some '%' := by
  intro h
  obtain ⟨s, hs⟩ := List.head?_eq_some_iff.mp h
  have hskip := spec.skipOptions_text rest
  rw [hs] at hskip
  have hpercent : '%' = spec.conversion := (cons_eq_cons.mp hskip).1
  exact absurd (hpercent ▸ spec.isConversion) (by unfold IsConversion; decide)

/-- A conversion in a format: what it emits, and then what the rest of the format emits. -/
theorem Spec.emits_loop (spec : Spec) {mem : Memory} {fuel : Nat} {args : VaList}
    {rest text : List Char} {r : Except Fault Unit}
    (h : Emits (loop mem fuel rest args.tail) text r) :
    Emits (loop mem (fuel + 1) ('%' :: (spec.text ++ rest)) args)
      (spec.output mem args ++ text) r := by
  refine emits_loop_conversion (spec.head_text rest) (spec.skipOptions_text rest) ?_ h
  rw [spec.parse_text]
  exact emits_convert spec.isConversion

/-- What `__vprintf` emits for a format that is one conversion. -/
theorem Spec.emits_output (spec : Spec) (mem : Memory) (args : VaList) :
    Emits (printed mem ('%' :: spec.text) args) (spec.output mem args) (.ok ()) := by
  have h := spec.emits_loop (emits_loop_nil mem (spec.text.length + 31) args.tail)
  rw [append_nil, append_nil] at h
  exact h

end Pintos.LibC.StdioSpecs
