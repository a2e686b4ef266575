import Pintos.Lib.Emission

/-!
# Formatted output

`__vprintf` of `lib/stdio.c` with `parse_conversion`, `format_integer` and `format_string`. Output
goes through a callback with a state of its own. A pointer into the format is the list of the
characters from there to the terminating null character; at the terminator the list is empty, and
reading the character is reading the null character. Reading behind the terminator stops with
`pastFormat`, writing behind the end of the digit buffer with `bufferOverflow`.

Arguments are 64-bit words, of which `va_arg` takes the lower part that its type asks for; the list
of arguments is a sequence without an end, since nothing in the code knows where it ends.
`__vprintf` gives `parse_conversion` the address of its parameter `args`. A `va_list` is an array on
x86-64 and the parameter a pointer, so that address is not the one of the list: for a `*`,
`parse_conversion` reads a word that is no argument, and the list stays where it is. `int`
arithmetic wraps. Characters are those of `Char`, of which the C code has the first 256.
-/

set_option autoImplicit false

namespace Pintos.LibC.Stdio

open Lib.StateExcept Lib.Emission

/-- Why a function stops. -/
inductive Fault where
  | pastFormat
  | bufferOverflow
  | endless
  deriving DecidableEq, Repr

/-! ## Conversions -/

/-- The flags of a conversion. -/
structure Flags where
  minus : Bool := false
  plus : Bool := false
  space : Bool := false
  pound : Bool := false
  zero : Bool := false
  group : Bool := false
  deriving DecidableEq, Repr

/-- Type of argument to format. -/
inductive ArgType where
  | char
  | short
  | int
  | intmax
  | long
  | longlong
  | ptrdifft
  | sizet
  deriving DecidableEq, Repr

/-- `struct printf_conversion`; a precision of -1 stands for none. -/
structure PrintfConversion where
  flags : Flags
  width : Int32
  precision : Int32
  type : ArgType
  deriving DecidableEq

/-- `struct integer_base`. -/
structure IntegerBase where
  base : Nat
  digits : List Char
  /-- The character after `0` in the `#` form of base 16. -/
  x : Option Char
  group : Nat

/-- `base_d`. -/
def baseD : IntegerBase := ⟨10, "0123456789".toList, none, 3⟩

/-- `base_o`. -/
def baseO : IntegerBase := ⟨8, "01234567".toList, none, 3⟩

/-- `base_x`. -/
def baseLowerX : IntegerBase := ⟨16, "0123456789abcdef".toList, some 'x', 4⟩

/-- `base_X`. -/
def baseUpperX : IntegerBase := ⟨16, "0123456789ABCDEF".toList, some 'X', 4⟩

/-- `va_list`. -/
abbrev VaList : Type := Nat → UInt64

/-- The arguments after the first. -/
def VaList.tail (args : VaList) : VaList := fun k => args (k + 1)

/-- `va_arg (args, int)`. -/
def vaInt (args : VaList) : Int32 := (args 0).toUInt32.toInt32

/-- What the code reads beside the format and the arguments. -/
structure Memory where
  /-- The character at an address. -/
  char : UInt64 → Char
  /-- The word that `va_arg (*args, int)` of `parse_conversion` finds for the `*` in front of a rest
  of the format. -/
  stray : List Char → Int32

/-- The flag loop of `parse_conversion`. -/
def parseFlags : List Char → Flags → Flags × List Char
  | '-' :: s, f => parseFlags s { f with minus := true }
  | '+' :: s, f => parseFlags s { f with plus := true }
  | ' ' :: s, f => parseFlags s { f with space := true }
  | '#' :: s, f => parseFlags s { f with pound := true }
  | '0' :: s, f => parseFlags s { f with zero := true }
  | '\'' :: s, f => parseFlags s { f with group := true }
  | s, f => (f, s)

/-- The flags that override others. -/
def normalise (f : Flags) : Flags :=
  { f with zero := f.zero && !f.minus, space := f.space && !f.plus }

/-- The loops over the digits of a width or a precision. -/
def parseDigits : List Char → Int32 → Int32 × List Char
  | [], n => (n, [])
  | ch :: s, n =>
    if ch.isDigit then parseDigits s (n * 10 + Int32.ofNat ch.toNat - 48) else (n, ch :: s)

/-- The field width, with what follows it. -/
def parseWidth (mem : Memory) : List Char → Int32 × List Char
  | '*' :: s => (mem.stray s, s)
  | s => parseDigits s 0

/-- The precision, with what follows it. -/
def parsePrecision (mem : Memory) : List Char → Int32 × List Char
  | '.' :: '*' :: s => (if mem.stray s < 0 then -1 else mem.stray s, s)
  | '.' :: s => (if (parseDigits s 0).1 < 0 then -1 else (parseDigits s 0).1, (parseDigits s 0).2)
  | s => (-1, s)

/-- The length modifier, with what follows it. -/
def parseType : List Char → ArgType × List Char
  | 'h' :: 'h' :: s => (.char, s)
  | 'h' :: s => (.short, s)
  | 'j' :: s => (.intmax, s)
  | 'l' :: 'l' :: s => (.longlong, s)
  | 'l' :: s => (.long, s)
  | 't' :: s => (.ptrdifft, s)
  | 'z' :: s => (.sizet, s)
  | s => (.int, s)

/-- `parse_conversion`. The flags are normalised before the width is read, and a negative width adds
`-` afterwards. -/
def parseConversion (mem : Memory) (format : List Char) : PrintfConversion × List Char :=
  let (flags, format) := parseFlags format {}
  let flags := normalise flags
  let (width, format) := parseWidth mem format
  let flags := if width < 0 then { flags with minus := true } else flags
  let width := if width < 0 then -width else width
  let (precision, format) := parsePrecision mem format
  let flags := if precision ≥ 0 then { flags with zero := false } else flags
  let (type, format) := parseType format
  (⟨flags, width, precision, type⟩, format)

/-! ## Arguments -/

/-- `SIZE_MAX`, which `stdint.h` defines as `UINT32_MAX`. -/
def sizeMax : Int64 := 4294967295

/-- `PTRDIFF_MAX`, which `stdint.h` defines as `INT32_MAX`. -/
def ptrdiffMax : UInt64 := 2147483647

/-- The value that a signed conversion takes. -/
def signedArg (type : ArgType) (w : UInt64) : Int64 :=
  match type with
  | .char => w.toUInt8.toInt8.toInt64
  | .short => w.toUInt16.toInt16.toInt64
  | .int => w.toUInt32.toInt32.toInt64
  | .intmax => w.toInt64
  | .long => w.toInt64
  | .longlong => w.toInt64
  | .ptrdifft => w.toInt64
  | .sizet =>
    let value := w.toInt64
    if value > sizeMax / 2 then value - sizeMax - 1 else value

/-- The value that an unsigned conversion takes. -/
def unsignedArg (type : ArgType) (w : UInt64) : UInt64 :=
  match type with
  | .char => w.toUInt8.toUInt64
  | .short => w.toUInt16.toUInt64
  | .int => w.toUInt32.toUInt64
  | .intmax => w
  | .long => w
  | .longlong => w
  | .ptrdifft => w &&& ((ptrdiffMax <<< 1) ||| 1)
  | .sizet => w

/-! ## The digit buffer -/

/-- `*cp++ = ch`. The list holds the characters of the buffer, the last one written first. -/
def push (buf : List Char) (ch : Char) : Except Fault (List Char) :=
  if buf.length < 64 then .ok (ch :: buf) else .error .bufferOverflow

/-- The digit loop of `format_integer`, for at most as many rounds as a value has bits. -/
def accumulateDigits (b : IntegerBase) (group : Bool) :
    Nat → Nat → Nat → List Char → Except Fault (List Char)
  | 0, _, _, _ => .error .endless
  | fuel + 1, value, digitCnt, buf =>
    if value > 0 then do
      let buf ← if group && digitCnt > 0 && digitCnt % b.group = 0 then push buf ',' else .ok buf
      let buf ← push buf (b.digits.getD (value % b.base) '\x00')
      accumulateDigits b group fuel (value / b.base) (digitCnt + 1) buf
    else
      .ok buf

/-- The loop of `format_integer` that appends zeros, for at most as many rounds as the buffer has
characters. -/
def appendZeros (precision : Int32) : Nat → List Char → Except Fault (List Char)
  | 0, _ => .error .endless
  | fuel + 1, buf =>
    if (buf.length : Int) < precision.toInt ∧ buf.length < 63 then do
      appendZeros precision fuel (← push buf '0')
    else
      .ok buf

/-- The part of `format_integer` that fills its buffer. -/
def digitBuffer (value : UInt64) (b : IntegerBase) (c : PrintfConversion) :
    Except Fault (List Char) := do
  let buf ← accumulateDigits b c.flags.group 65 value.toNat 0 []
  let precision := if c.precision < 0 then 1 else c.precision
  let buf ← appendZeros precision 65 buf
  if c.flags.pound ∧ b.base = 8 ∧ buf.head? ≠ some '0' then push buf '0' else .ok buf

/-- The sign character of `format_integer`. -/
def signChar (isSigned negative : Bool) (f : Flags) : Option Char :=
  if isSigned then
    if f.plus then some (if negative then '-' else '+')
    else if f.space then some (if negative then '-' else ' ')
    else if negative then some '-' else none
  else
    none

/-- The `x` character of `format_integer`. -/
def xChar (value : UInt64) (b : IntegerBase) (f : Flags) : Option Char :=
  if f.pound ∧ value ≠ 0 then b.x else none

/-- `pad_cnt`: the difference of type `ptrdiff_t` is stored in an `int`. -/
def padCnt (width : Int32) (digits : Nat) (x sign : Option Char) : Nat :=
  (Int.bmod (width.toInt - digits - (if x.isSome then 2 else 0) - (if sign.isSome then 1 else 0))
    (2 ^ 32)).toNat

/-! ## Output -/

/-- An `int` where a `size_t` is wanted. -/
def sizeT (n : Int32) : Nat := n.toInt64.toUInt64.toNat

/-- The loop of `strnlen`, from character `length` on. -/
def strnlenFrom (string : Nat → Char) : Nat → Nat → Nat
  | 0, length => length
  | n + 1, length => if string length ≠ '\x00' then strnlenFrom string n (length + 1) else length

/-- `strnlen`. -/
def strnlen (string : Nat → Char) (maxlen : Nat) : Nat := strnlenFrom string maxlen 0

/-- The string at an address, or the text that is printed for a null pointer. -/
def stringArg (mem : Memory) (s : UInt64) : Nat → Char :=
  if s = 0 then fun i => "(null)".toList.getD i '\x00' else fun i => mem.char (s + UInt64.ofNat i)

section Output

variable {σ : Type} (output : Char → Comp σ Fault Unit)

/-- A statement under a condition. -/
def onlyIf (p : Bool) (x : Comp σ Fault Unit) : Comp σ Fault Unit := if p then x else pure ()

/-- A character, if there is one. -/
def outputOpt (ch : Option Char) : Comp σ Fault Unit :=
  match ch with
  | some ch => output ch
  | none => pure ()

/-- `output_dup`. -/
def outputDup (ch : Char) : Nat → Comp σ Fault Unit
  | 0 => pure ()
  | cnt + 1 => do
    output ch
    outputDup ch cnt

/-- `format_integer`. -/
def formatInteger (value : UInt64) (isSigned negative : Bool) (b : IntegerBase)
    (c : PrintfConversion) : Comp σ Fault Unit := do
  let sign := signChar isSigned negative c.flags
  let x := xChar value b c.flags
  let buf ← finish (digitBuffer value b c)
  let pad := padCnt c.width buf.length x sign
  onlyIf (!c.flags.minus && !c.flags.zero) (outputDup output ' ' pad)
  outputOpt output sign
  onlyIf x.isSome (output '0')
  outputOpt output x
  onlyIf c.flags.zero (outputDup output '0' pad)
  buf.forM output
  onlyIf c.flags.minus (outputDup output ' ' pad)

/-- `format_string`. -/
def formatString (string : Nat → Char) (length : Int32) (c : PrintfConversion) :
    Comp σ Fault Unit := do
  onlyIf (c.width > length && !c.flags.minus) (outputDup output ' ' (sizeT (c.width - length)))
  (List.range length.toInt.toNat).forM fun i => output (string i)
  onlyIf (c.width > length && c.flags.minus) (outputDup output ' ' (sizeT (c.width - length)))

/-- A signed integer conversion. -/
def formatSigned (c : PrintfConversion) (args : VaList) : Comp σ Fault Unit :=
  let value := signedArg c.type (args 0)
  formatInteger output (if value < 0 then -value else value).toUInt64 true (value < 0) baseD c

/-- An unsigned integer conversion. -/
def formatUnsigned (b : IntegerBase) (c : PrintfConversion) (args : VaList) : Comp σ Fault Unit :=
  formatInteger output (unsignedArg c.type (args 0)) false false b c

/-- The `switch` of `__vprintf`; `message` is `__printf` with a format and a character. It gives the
arguments that are left. -/
def convert (mem : Memory) (message : String → Char → Comp σ Fault Unit) (ch : Char)
    (c : PrintfConversion) (args : VaList) : Comp σ Fault VaList :=
  match ch with
  | 'd' => formatSigned output c args >>= fun _ => pure args.tail
  | 'i' => formatSigned output c args >>= fun _ => pure args.tail
  | 'o' => formatUnsigned output baseO c args >>= fun _ => pure args.tail
  | 'u' => formatUnsigned output baseD c args >>= fun _ => pure args.tail
  | 'x' => formatUnsigned output baseLowerX c args >>= fun _ => pure args.tail
  | 'X' => formatUnsigned output baseUpperX c args >>= fun _ => pure args.tail
  | 'c' => do
    let ch := Char.ofNat (args 0).toUInt8.toNat
    formatString output (fun _ => ch) 1 c
    return args.tail
  | 's' => do
    let s := stringArg mem (args 0)
    formatString output s (Int32.ofNat (strnlen s (sizeT c.precision))) c
    return args.tail
  | 'p' => do
    formatInteger output (args 0) false false baseLowerX { c with flags := { pound := true } }
    return args.tail
  | 'f' => message "<<no %%%c in kernel>>" ch >>= fun _ => pure args
  | 'e' => message "<<no %%%c in kernel>>" ch >>= fun _ => pure args
  | 'E' => message "<<no %%%c in kernel>>" ch >>= fun _ => pure args
  | 'g' => message "<<no %%%c in kernel>>" ch >>= fun _ => pure args
  | 'G' => message "<<no %%%c in kernel>>" ch >>= fun _ => pure args
  | 'n' => message "<<no %%%c in kernel>>" ch >>= fun _ => pure args
  | _ => message "<<no %%%c conversion>>" ch >>= fun _ => pure args

/-- The arguments of `__printf` when it is given one character. -/
def charArgs (ch : Char) : VaList := fun _ => UInt64.ofNat ch.toNat

/-- The loop of `__vprintf`. -/
def vprintfFrom (mem : Memory) : Nat → List Char → VaList → Comp σ Fault Unit
  | 0, _, _ => throw .endless
  | _ + 1, [], _ => pure ()
  | fuel + 1, '%' :: '%' :: s, args => do
    output '%'
    vprintfFrom mem fuel s args
  | fuel + 1, '%' :: s, args => do
    let (c, rest) := parseConversion mem s
    let args ← convert output mem
      (fun text ch => vprintfFrom mem fuel text.toList (charArgs ch)) (rest.headD '\x00') c args
    match rest with
    -- `format++` has left the terminator behind, and the loop looks at the next character
    | [] => throw .pastFormat
    | _ :: s => vprintfFrom mem fuel s args
  | fuel + 1, ch :: s, args => do
    output ch
    vprintfFrom mem fuel s args

/-- `__vprintf`. The bound is enough for the format and for the messages that it prints. -/
def vprintf (mem : Memory) (format : List Char) (args : VaList) : Comp σ Fault Unit :=
  vprintfFrom output mem (format.length + 32) format args

end Output

/-! ## What is emitted -/

section Emitted

variable {x : Writer Char Fault Unit} {text : List Char}

theorem emits_onlyIf (p : Bool) (hx : Emits x text (.ok ())) :
    Emits (fun σ output => onlyIf p (x σ output)) (if p then text else []) (.ok ()) := by
  cases p with
  | true => exact hx
  | false => exact emits_pure ()

theorem emits_outputOpt (ch : Option Char) :
    Emits (fun _ output => outputOpt output ch) ch.toList (.ok ()) := by
  cases ch with
  | none => exact emits_pure ()
  | some ch => exact emits_output ch

theorem emits_outputDup (ch : Char) (cnt : Nat) :
    Emits (fun _ output => outputDup output ch cnt) (List.replicate cnt ch) (.ok ()) := by
  induction cnt with
  | zero => exact emits_pure ()
  | succ cnt ih => exact ih.cons

/-- The characters of an integer conversion. -/
def integerText (c : PrintfConversion) (sign x : Option Char) (buf : List Char) : List Char :=
  let pad := padCnt c.width buf.length x sign
  (if !c.flags.minus && !c.flags.zero then List.replicate pad ' ' else []) ++
    (sign.toList ++ ((if x.isSome then ['0'] else []) ++ (x.toList ++
      ((if c.flags.zero then List.replicate pad '0' else []) ++
        (buf ++ if c.flags.minus then List.replicate pad ' ' else [])))))

theorem emits_formatInteger {value : UInt64} {b : IntegerBase} {c : PrintfConversion}
    {buf : List Char} (hbuf : digitBuffer value b c = .ok buf) (isSigned negative : Bool) :
    Emits (fun _ output => formatInteger output value isSigned negative b c)
      (integerText c (signChar isSigned negative c.flags)
        (xChar value b c.flags) buf) (.ok ()) := by
  have hfinish : Emits (γ := Char) (fun _ _ => finish (digitBuffer value b c)) [] (.ok buf) := by
    rw [hbuf]
    exact emits_pure buf
  refine hfinish.bind (f := fun buf σ output => _) ?_
  refine (emits_onlyIf _ (emits_outputDup ' ' _)).bind (f := fun _ σ output => _) ?_
  refine (emits_outputOpt _).bind (f := fun _ σ output => _) ?_
  refine (emits_onlyIf _ (emits_output '0')).bind (f := fun _ σ output => _) ?_
  refine (emits_outputOpt _).bind (f := fun _ σ output => _) ?_
  refine (emits_onlyIf _ (emits_outputDup '0' _)).bind (f := fun _ σ output => _) ?_
  refine (emits_forM buf).bind (f := fun _ σ output => _) ?_
  exact emits_onlyIf _ (emits_outputDup ' ' _)

/-- The characters of a string conversion. -/
def stringText (string : Nat → Char) (length : Int32) (c : PrintfConversion) : List Char :=
  (if c.width > length && !c.flags.minus then
    List.replicate (sizeT (c.width - length)) ' ' else []) ++
    ((List.range length.toInt.toNat).map string ++
      if c.width > length && c.flags.minus then
        List.replicate (sizeT (c.width - length)) ' ' else [])

theorem emits_formatString (string : Nat → Char) (length : Int32) (c : PrintfConversion) :
    Emits (fun _ output => formatString output string length c) (stringText string length c)
      (.ok ()) := by
  refine (emits_onlyIf _ (emits_outputDup ' ' _)).bind (f := fun _ σ output => _) ?_
  refine (emits_forM_map _ _).bind (f := fun _ σ output => _) ?_
  exact emits_onlyIf _ (emits_outputDup ' ' _)

end Emitted

end Pintos.LibC.Stdio
