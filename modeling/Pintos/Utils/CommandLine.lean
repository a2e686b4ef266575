import Mathlib.Data.List.GetD
import Pintos.Lib.ByteMemory

/-!
# The kernel command line

The utility `utils/pintos` writes the arguments of the kernel into the boot sector of a copy of the
disk image (`__prepare_kernel_argument`), and `read_command_line` of `threads/init.c` takes them out
again when the kernel boots. The utility counts characters, the boot sector has room for bytes; the
utility bounds the text, the kernel has room for a number of pointers. The two agree exactly for
ASCII arguments of which there are at most 64 (`commandLine_roundTrip_iff`).

A text of Python is a list of characters, and its bytes are those of its UTF-8 encoding.
-/

set_option autoImplicit false

namespace Pintos.Utils.CommandLine

open Lib.ByteMemory List

/-! ## The utility -/

/-- A text of Python. -/
abbrev Text : Type := List Char

/-- Why the utility stops. -/
inductive ToolError where
  /-- `arg[0]` of an empty argument raises an `IndexError`. -/
  | indexError
  /-- `die("command line exceeds 128 bytes")`. -/
  | tooLong
  deriving DecidableEq

/-- The loop that takes the options off the front of the arguments: these, and what remains. -/
def splitOptions : List Text → Except ToolError (List Text × List Text)
  | [] => .ok ([], [])
  | [] :: _ => .error .indexError
  | (c :: arg) :: rest =>
    if c ≠ '-' then
      .ok ([], (c :: arg) :: rest)
    else do
      let (args, rem) ← splitOptions rest
      return ((c :: arg) :: args, rem)

/-- The arguments of the kernel: the options, a `put` for each file to copy in, the other arguments,
and a `get` for each file to copy out. -/
def kernelArguments (args puts gets : List Text) : Except ToolError (List Text) := do
  let (options, rem) ← splitOptions args
  return options ++ puts.flatMap (fun put => [['p', 'u', 't'], put]) ++ rem ++
    gets.flatMap fun get => [['g', 'e', 't'], get]

/-- The arguments in one text, each with a `\0` after it. -/
def joined (args : List Text) : Text := args.flatMap fun c => c ++ ['\x00']

/-- `ljust(n, '\0')`. -/
def ljust (s : Text) (n : Nat) : Text := s ++ List.replicate (n - s.length) '\x00'

/-- `bytes(s, 'utf-8')`. -/
def utf8 (s : Text) : List UInt8 := s.flatMap String.utf8EncodeChar

/-- `struct.pack("<I", v)`. -/
def packU32 (v : Nat) : List UInt8 := bytesLE 4 v

/-- `__prepare_kernel_argument`: the image that is written, from the bytes of `os.dsk`. -/
def prepareKernelArgument (args puts gets : List Text) (data : List UInt8) :
    Except ToolError (List UInt8) := do
  let args ← kernelArguments args puts gets
  let cmd := joined args
  if 128 < cmd.length then
    throw .tooLong
  return data.take 0x17a ++ packU32 args.length ++ utf8 (ljust cmd 128) ++ data.drop 0x1fe

/-! ## The kernel -/

/-- `LOADER_BASE`: where the first sector of the image is loaded. -/
def loaderBase : Nat := 0x7c00

/-- `LOADER_ARGS_LEN`. -/
def loaderArgsLen : Nat := 128

/-- `LOADER_ARGS`: the end of the sector less the signature and the arguments. -/
def loaderArgs : Nat := 0x7e00 - 2 - loaderArgsLen

/-- `LOADER_ARG_CNT`. -/
def loaderArgCnt : Nat := loaderArgs - 4

/-- What can go wrong in `read_command_line`. -/
inductive BootError where
  /-- `PANIC ("command line arguments overflow")`. -/
  | argumentsOverflow
  /-- An element outside `argv` is assigned. -/
  | argvOverflow
  /-- A byte outside the arguments is read. -/
  | readBeyond
  deriving DecidableEq

/-- `argv`, of `LOADER_ARGS_LEN / 2 + 1` pointers. -/
abbrev Argv : Type := List (Option Nat)

/-- `argv[i] = p`. -/
def setArgv (argv : Argv) (i : Int) (p : Option Nat) : Except BootError Argv :=
  if 0 ≤ i ∧ i < argv.length then .ok (argv.set i.toNat p) else .error .argvOverflow

/-- Read a character of the arguments. -/
def readChar (mem : Bytes) (p : Nat) : Except BootError UInt8 :=
  if loaderArgs ≤ p ∧ p < loaderArgs + loaderArgsLen then .ok (mem p) else .error .readBeyond

/-- `strnlen`, which reads a character before it looks at the bound. -/
def strnlen (mem : Bytes) (p : Nat) : Nat → Except BootError Nat
  | 0 => do
    let _ ← readChar mem p
    return 0
  | maxlen + 1 => do
    if (← readChar mem p) = 0 then
      return 0
    else
      return (← strnlen mem (p + 1) maxlen) + 1

/-- `strchr`. Each round reads one character further, so that the arguments bound the rounds. -/
def strchr (mem : Bytes) (c : UInt8) : Nat → Nat → Except BootError (Option Nat)
  | 0, _ => .error .readBeyond
  | fuel + 1, p => do
    let b ← readChar mem p
    if b = c then
      return some p
    else if b = 0 then
      return none
    else
      strchr mem c fuel (p + 1)

/-- The characters of a string, as `%s` prints them. -/
def stringAt (mem : Bytes) : Nat → Nat → Except BootError (List UInt8)
  | 0, _ => .error .readBeyond
  | fuel + 1, p => do
    let b ← readChar mem p
    if b = 0 then
      return []
    else
      return b :: (← stringAt mem fuel (p + 1))

/-- The first loop of `read_command_line`, for the rest of the arguments. -/
def fillArgv (mem : Bytes) : Nat → Nat → Nat → Argv → Except BootError Argv
  | 0, _, _, argv => .ok argv
  | cnt + 1, i, p, argv =>
    if loaderArgs + loaderArgsLen ≤ p then
      .error .argumentsOverflow
    else do
      let argv ← setArgv argv i (some p)
      let len ← strnlen mem p (loaderArgs + loaderArgsLen - p)
      fillArgv mem cnt (i + 1) (p + (len + 1)) argv

/-- What is printed for an argument: it is quoted if there is a space in it. -/
def printArg (mem : Bytes) (p : Option Nat) : Except BootError (List UInt8) :=
  match p with
  | none => .error .readBeyond
  | some p => do
    let space ← strchr mem 0x20 (loaderArgsLen + 1) p
    let text ← stringAt mem (loaderArgsLen + 1) p
    return match space with
      | none => 0x20 :: text
      | some _ => 0x20 :: 0x27 :: (text ++ [0x27])

/-- A 32-bit value as an `int`. -/
def asInt (v : Nat) : Int := if v < 2 ^ 31 then v else (v : Int) - 2 ^ 32

/-- `read_command_line`: `argv`, and the arguments as they are printed. -/
def readCommandLine (mem : Bytes) : Except BootError (Argv × List (List UInt8)) := do
  let argc := asInt (readLE mem 4 loaderArgCnt)
  let argv := List.replicate (loaderArgsLen / 2 + 1) none
  let argv ← fillArgv mem argc.toNat 0 loaderArgs argv
  let argv ← setArgv argv argc none
  let printed ← (argv.take argc.toNat).mapM (printArg mem)
  return (argv, printed)

/-! ## Characters and bytes -/

/-- A text has at least as many bytes as characters, and no more only if all of it is ASCII. -/
theorem length_utf8 (s : Text) : s.length ≤ (utf8 s).length ∧
    ((utf8 s).length = s.length ↔ ∀ c ∈ s, c.val ≤ 0x7f) := by
  induction s with
  | nil => simp [utf8]
  | cons c s ih =>
    obtain ⟨hle, hiff⟩ := ih
    have hlen : (utf8 (c :: s)).length = c.utf8Size + (utf8 s).length := by
      rw [utf8, flatMap_cons, length_append, String.length_utf8EncodeChar]
      rfl
    have hpos : 0 < c.utf8Size := c.utf8Size_pos
    rw [hlen, length_cons]
    rw [forall_mem_cons, ← hiff, ← Char.utf8Size_eq_one_iff]
    omega

variable {s : Text} {i : Nat}

/-- The byte of an ASCII character is its code. -/
theorem utf8_ascii (h : ∀ c ∈ s, c.val ≤ 0x7f) :
    utf8 s = s.map fun c => c.val.toUInt8 := by
  induction s with
  | nil => rfl
  | cons c s ih =>
    obtain ⟨hc, hs⟩ := forall_mem_cons.1 h
    have hone := String.utf8EncodeChar_eq_singleton (Char.utf8Size_eq_one_iff.2 hc)
    rw [utf8, flatMap_cons, hone, map_cons, ← ih hs]
    rfl

/-- Only the character `\0` has a zero byte, among the ASCII ones. -/
theorem zero_notMem_utf8 (h : ∀ c ∈ s, c.val ≤ 0x7f) (h0 : '\x00' ∉ s) :
    (0 : UInt8) ∉ utf8 s := by
  rw [utf8_ascii h]
  intro hmem
  obtain ⟨c, hc, hzero⟩ := mem_map.1 hmem
  have hval : c.val = 0 := by
    have hle : c.val.toNat ≤ 127 := UInt32.le_iff_toNat_le.1 (h c hc)
    have hnat : c.val.toNat % 256 = 0 :=
      (UInt32.toNat_toUInt8 c.val).symm.trans (congrArg UInt8.toNat hzero)
    apply UInt32.toNat_inj.1
    show c.val.toNat = 0
    omega
  have hchar : c = '\x00' := Char.ext hval
  exact h0 (hchar ▸ hc)

theorem utf8_append (s t : Text) : utf8 (s ++ t) = utf8 s ++ utf8 t := flatMap_append

/-- The bytes of the command line are those of the arguments, each with a zero after it. -/
theorem utf8_joined (args : List Text) :
    utf8 (joined args) = (args.map utf8).flatMap fun b => b ++ [0] := by
  induction args with
  | nil => rfl
  | cons arg args ih =>
    rw [joined, flatMap_cons, utf8_append, utf8_append, map_cons, flatMap_cons, ← ih]
    rfl

/-! ## Strings in memory -/

section Memory

variable {mem : Bytes} {p : Nat} {a : List UInt8} {bs : List (List UInt8)} {argv : Argv}

/-- The string with these characters stands at an address, its end among the arguments. -/
structure StringIn (mem : Bytes) (p : Nat) (a : List UInt8) : Prop where
  holds : Holds mem p (a ++ [0])
  nonzero : (0 : UInt8) ∉ a
  begins : loaderArgs ≤ p
  ends : p + a.length < loaderArgs + loaderArgsLen

theorem StringIn.readChar (h : StringIn mem p a) : readChar mem p = .ok (mem p) := by
  have hle := h.ends
  exact if_pos ⟨h.begins, by omega⟩

/-- The first character, and the rest of the string. -/
theorem StringIn.tail {b : UInt8} (h : StringIn mem p (b :: a)) :
    mem p = b ∧ b ≠ 0 ∧ StringIn mem (p + 1) a := by
  obtain ⟨hb, ha⟩ := h.holds
  have hnonzero := not_or.1 (mt mem_cons.2 h.nonzero)
  have hends := h.ends
  have hbegins := h.begins
  rw [length_cons] at hends
  exact ⟨hb, Ne.symm hnonzero.1, ha, hnonzero.2, by omega, by omega⟩

theorem StringIn.nil (h : StringIn mem p []) : mem p = 0 := h.holds.1

theorem strnlen_eq (h : StringIn mem p a) {maxlen : Nat} (hmax : a.length ≤ maxlen) :
    strnlen mem p maxlen = .ok a.length := by
  induction a generalizing p maxlen with
  | nil =>
    cases maxlen with
    | zero =>
      rw [strnlen, h.readChar]
      rfl
    | succ maxlen =>
      rw [strnlen, h.readChar]
      show (if mem p = 0 then _ else _) = _
      rw [if_pos h.nil]
      rfl
  | cons b a ih =>
    obtain ⟨hb, hne, htail⟩ := h.tail
    cases maxlen with
    | zero => cases hmax
    | succ maxlen =>
      rw [strnlen, h.readChar]
      show (if mem p = 0 then _ else _) = _
      rw [hb, if_neg hne, ih htail (Nat.le_of_succ_le_succ hmax)]
      rfl

theorem stringAt_eq (h : StringIn mem p a) {fuel : Nat} (hfuel : a.length < fuel) :
    stringAt mem fuel p = .ok a := by
  induction a generalizing p fuel with
  | nil =>
    obtain ⟨fuel, rfl⟩ := Nat.exists_eq_succ_of_ne_zero (ne_of_gt hfuel)
    rw [stringAt, h.readChar]
    show (if mem p = 0 then _ else _) = _
    rw [if_pos h.nil]
    rfl
  | cons b a ih =>
    obtain ⟨hb, hne, htail⟩ := h.tail
    cases fuel with
    | zero => cases hfuel
    | succ fuel =>
      rw [stringAt, h.readChar]
      show (if mem p = 0 then _ else _) = _
      rw [hb, if_neg hne, ih htail (Nat.lt_of_succ_lt_succ hfuel)]
      rfl

theorem strchr_ok (h : StringIn mem p a) {c : UInt8} {fuel : Nat} (hfuel : a.length < fuel) :
    ∃ r, strchr mem c fuel p = .ok r := by
  induction a generalizing p fuel with
  | nil =>
    obtain ⟨fuel, rfl⟩ := Nat.exists_eq_succ_of_ne_zero (ne_of_gt hfuel)
    rw [strchr, h.readChar]
    show ∃ r, (if mem p = c then _ else if mem p = 0 then _ else _) = Except.ok r
    by_cases hc : mem p = c
    · exact ⟨some p, if_pos hc⟩
    · exact ⟨none, by rw [if_neg hc, if_pos h.nil]; rfl⟩
  | cons b a ih =>
    obtain ⟨hb, hne, htail⟩ := h.tail
    cases fuel with
    | zero => cases hfuel
    | succ fuel =>
      obtain ⟨r, hr⟩ := ih htail (Nat.lt_of_succ_lt_succ hfuel)
      rw [strchr, h.readChar]
      show ∃ r, (if mem p = c then _ else if mem p = 0 then _ else _) = Except.ok r
      by_cases hc : mem p = c
      · exact ⟨some p, if_pos hc⟩
      · exact ⟨r, by rw [if_neg hc, hb, if_neg hne, hr]⟩

theorem printArg_ok (h : StringIn mem p a) : ∃ out, printArg mem (some p) = .ok out := by
  have hlen : a.length < loaderArgsLen + 1 := by
    have hends := h.ends
    have hbegins := h.begins
    omega
  obtain ⟨r, hr⟩ := strchr_ok (c := 0x20) h hlen
  simp only [printArg, hr, stringAt_eq h hlen]
  exact ⟨_, rfl⟩

/-! ## Reading the arguments back -/

/-- Where the strings start that stand one after the other. -/
def pointers : Nat → List (List UInt8) → List Nat
  | _, [] => []
  | p, a :: rest => p :: pointers (p + (a.length + 1)) rest

theorem length_pointers (bs : List (List UInt8)) : (pointers p bs).length = bs.length := by
  induction bs generalizing p with
  | nil => rfl
  | cons a bs ih => rw [pointers, length_cons, length_cons, ih]

/-- The strings stand one after the other among the arguments. -/
structure StringsIn (mem : Bytes) (p : Nat) (bs : List (List UInt8)) : Prop where
  holds : Holds mem p (bs.flatMap fun b => b ++ [0])
  nonzero : ∀ b ∈ bs, (0 : UInt8) ∉ b
  begins : loaderArgs ≤ p
  ends : p + (bs.flatMap fun b => b ++ [0]).length ≤ loaderArgs + loaderArgsLen

theorem StringsIn.cons (h : StringsIn mem p (a :: bs)) :
    StringIn mem p a ∧ StringsIn mem (p + (a.length + 1)) bs := by
  have hholds := h.holds
  have hends := h.ends
  have hbegins := h.begins
  obtain ⟨ha, hbs⟩ := forall_mem_cons.1 h.nonzero
  rw [flatMap_cons, holds_append, length_append] at hholds
  rw [flatMap_cons, length_append, length_append] at hends
  have hone : [(0 : UInt8)].length = 1 := rfl
  exact ⟨⟨hholds.1, ha, hbegins, by omega⟩, ⟨hholds.2, hbs, by omega, by omega⟩⟩

theorem StringsIn.getElem (h : StringsIn mem p bs) (hi : bs[i]? = some a) :
    ∃ q, (pointers p bs)[i]? = some q ∧ StringIn mem q a := by
  induction bs generalizing p i with
  | nil => cases hi
  | cons b bs ih =>
    obtain ⟨hb, hbs⟩ := h.cons
    cases i with
    | zero =>
      cases hi
      exact ⟨p, rfl, hb⟩
    | succ i => exact ih hbs hi

/-- The first loop of `read_command_line` finds the strings, if `argv` has room for them. -/
theorem fillArgv_eq (h : StringsIn mem p bs) (filled : Argv) (free : Nat) :
    fillArgv mem bs.length filled.length p (filled ++ List.replicate (bs.length + free) none) =
      .ok (filled ++ (pointers p bs).map some ++ List.replicate free none) := by
  induction bs generalizing p filled with
  | nil => simp [fillArgv, pointers]
  | cons a bs ih =>
    obtain ⟨ha, hbs⟩ := h.cons
    have hends := ha.ends
    have hset : setArgv (filled ++ List.replicate ((a :: bs).length + free) none)
      filled.length (some p) =
        .ok ((filled ++ [some p]) ++ List.replicate (bs.length + free) none) := by
      have hrep : List.replicate ((a :: bs).length + free) (none : Option Nat) =
          none :: List.replicate (bs.length + free) none := by
        rw [length_cons, Nat.add_right_comm]
        rfl
      rw [setArgv, if_pos, hrep, Int.toNat_natCast, set_append_right _ _ (le_refl _), Nat.sub_self,
        set_cons_zero, append_assoc]
      · rfl
      · rw [length_append, length_replicate, length_cons]
        omega
    have hrest := ih hbs (filled ++ [some p])
    rw [length_append] at hrest
    rw [length_cons] at hset ⊢
    rw [fillArgv, if_neg (by omega)]
    simp only [hset, strnlen_eq ha (show a.length ≤ loaderArgs + loaderArgsLen - p by omega)]
    refine Eq.trans hrest ?_
    rw [pointers, map_cons, append_assoc filled]
    rfl

/-- Every argument can be printed. -/
theorem printArgs_ok (h : StringsIn mem p bs) :
    ∃ out, ((pointers p bs).map some).mapM (printArg mem) = .ok out := by
  induction bs generalizing p with
  | nil => exact ⟨[], rfl⟩
  | cons a bs ih =>
    obtain ⟨ha, hbs⟩ := h.cons
    obtain ⟨out, hout⟩ := printArg_ok ha
    obtain ⟨outs, houts⟩ := ih hbs
    rw [pointers, map_cons, mapM_cons, hout]
    simp only [houts]
    exact ⟨out :: outs, rfl⟩

/-- `read_command_line` finds the strings, if `argv` has room for them and the null pointer. -/
theorem readCommandLine_eq (h : StringsIn mem loaderArgs bs)
    (hcnt : readLE mem 4 loaderArgCnt = bs.length) (hroom : bs.length ≤ loaderArgsLen / 2) :
    ∃ printed, readCommandLine mem = .ok ((pointers loaderArgs bs).map some ++
      List.replicate (loaderArgsLen / 2 + 1 - bs.length) none, printed) := by
  have hsmall : bs.length ≤ 64 := hroom
  have hargc : asInt (readLE mem 4 loaderArgCnt) = bs.length := by
    rw [hcnt, asInt, if_pos (by omega)]
  have hsize : loaderArgsLen / 2 + 1 = bs.length + (loaderArgsLen / 2 + 1 - bs.length) := by omega
  have hfill := fillArgv_eq h [] (loaderArgsLen / 2 + 1 - bs.length)
  rw [← hsize, nil_append, nil_append] at hfill
  -- the null pointer is stored where there is one already
  obtain ⟨free, hfree⟩ : ∃ free, loaderArgsLen / 2 + 1 - bs.length = free + 1 :=
    ⟨loaderArgsLen / 2 - bs.length, by omega⟩
  have hlen : ((pointers loaderArgs bs).map some).length = bs.length := by
    rw [length_map, length_pointers]
  have hset : setArgv ((pointers loaderArgs bs).map some ++ List.replicate (free + 1) none)
    bs.length none =
      .ok ((pointers loaderArgs bs).map some ++ List.replicate (free + 1) none) := by
    rw [setArgv, if_pos, Int.toNat_natCast, set_append_right _ _ hlen.le, hlen, Nat.sub_self]
    · rfl
    · rw [length_append, hlen, length_replicate]
      omega
  obtain ⟨printed, hprinted⟩ := printArgs_ok h
  have htake :
    ((pointers loaderArgs bs).map some ++ List.replicate (free + 1) none).take bs.length =
      (pointers loaderArgs bs).map some := by
    rw [← hlen, take_left]
  rw [hfree] at hfill ⊢
  refine ⟨printed, ?_⟩
  simp only [readCommandLine, hargc, Int.toNat_natCast]
  show (fillArgv mem bs.length 0 loaderArgs (List.replicate (loaderArgsLen / 2 + 1) none) >>= _) = _
  rw [show (0 : Nat) = ([] : Argv).length from rfl, hfill]
  show (setArgv _ _ none >>= _) = _
  rw [hset]
  show (List.mapM (printArg mem) (List.take bs.length _) >>= _) = _
  rw [htake, hprinted]
  rfl

/-- Whatever is read, `argv` keeps its size. -/
theorem length_setArgv {argv' : Argv} {i : Int} {q : Option Nat}
    (h : setArgv argv i q = .ok argv') :
    argv'.length = argv.length := by
  unfold setArgv at h
  split at h
  · cases h
    exact length_set
  · cases h

/-- What returns after a first part has that part return. -/
theorem ok_of_bind {α β : Type} {x : Except BootError α} {f : α → Except BootError β} {r : β}
    (h : x >>= f = .ok r) : ∃ a, x = .ok a ∧ f a = .ok r := by
  cases x with
  | error e => cases h
  | ok a => exact ⟨a, rfl, h⟩

theorem length_fillArgv {cnt : Nat} {argv' : Argv} (h : fillArgv mem cnt i p argv = .ok argv') :
    argv'.length = argv.length := by
  induction cnt generalizing i p argv with
  | zero =>
    cases h
    rfl
  | succ cnt ih =>
    rw [fillArgv] at h
    split at h
    · cases h
    · obtain ⟨argv1, hset, h⟩ := ok_of_bind h
      obtain ⟨len, -, h⟩ := ok_of_bind h
      exact (ih h).trans (length_setArgv hset)

theorem length_readCommandLine {printed : List (List UInt8)}
    (h : readCommandLine mem = .ok (argv, printed)) : argv.length = loaderArgsLen / 2 + 1 := by
  obtain ⟨argv1, hfill, h⟩ := ok_of_bind h
  obtain ⟨argv2, hset, h⟩ := ok_of_bind h
  obtain ⟨out, -, h⟩ := ok_of_bind h
  cases h
  rw [length_setArgv hset, length_fillArgv hfill, length_replicate]

end Memory

/-! ## The round trip -/

/-- The first sector of the image is loaded when the machine boots. -/
def Loaded (mem : Bytes) (image : List UInt8) : Prop :=
  ∀ i < 512, mem (loaderBase + i) = image.getD i 0

/-- The image is as before outside the arguments, and the kernel reads the arguments from it. -/
structure RoundTrip (data image : List UInt8) (args : List Text) (mem : Bytes) : Prop where
  /-- Nothing is moved. -/
  length : image.length = data.length
  /-- Every byte outside the number and the text of the arguments is as before. -/
  unchanged : ∀ i, i < 0x17a ∨ 0x1fe ≤ i → image[i]? = data[i]?
  /-- `read_command_line` returns: it neither panics, nor reads or writes out of bounds. Its result
  is the list of the arguments, with a null pointer at the end. -/
  read : ∃ argv printed, readCommandLine mem = .ok (argv, printed) ∧
    (∀ (i : Nat) (arg : Text), args[i]? = some arg → ∃ p, argv[i]? = some (some p) ∧
      stringAt mem (loaderArgsLen + 1) p = .ok (utf8 arg)) ∧
    argv[args.length]? = some none

/-- The null pointer is an element of `argv`, which bounds the number of arguments. -/
theorem RoundTrip.room {data image : List UInt8} {args : List Text} {mem : Bytes}
    (h : RoundTrip data image args mem) : args.length ≤ loaderArgsLen / 2 := by
  obtain ⟨argv, printed, hread, -, hnull⟩ := h.read
  have hlt := (List.getElem?_eq_some_iff.1 hnull).1
  rw [length_readCommandLine hread] at hlt
  omega

section Image

variable {args : List Text} {data : List UInt8}

/-- The image that is written. -/
def imageOf (args : List Text) (data : List UInt8) : List UInt8 :=
  data.take 0x17a ++ packU32 args.length ++ utf8 (ljust (joined args) 128) ++ data.drop 0x1fe

/-- The utility writes the image, if the characters are not too many. -/
theorem prepareKernelArgument_ok {selfArgs puts gets : List Text} {image : List UInt8}
    (h : prepareKernelArgument selfArgs puts gets data = .ok image) :
    ∃ args, kernelArguments selfArgs puts gets = .ok args ∧ (joined args).length ≤ 128 ∧
      image = imageOf args data := by
  unfold prepareKernelArgument at h
  cases hargs : kernelArguments selfArgs puts gets with
  | error e =>
    rw [hargs] at h
    cases h
  | ok args =>
    rw [hargs] at h
    change (if 128 < (joined args).length then _ else _) = _ at h
    split at h
    · cases h
    · rename_i hshort
      cases h
      exact ⟨args, rfl, not_lt.1 hshort, rfl⟩

theorem length_ljust (h : s.length ≤ 128) : (ljust s 128).length = 128 := by
  rw [ljust, length_append, length_replicate]
  omega

/-- Padding adds ASCII characters only. -/
theorem ascii_ljust_joined :
    (∀ c ∈ ljust (joined args) 128, c.val ≤ 0x7f) ↔ ∀ arg ∈ args, ∀ c ∈ arg, c.val ≤ 0x7f := by
  constructor
  · intro h arg harg c hc
    apply h
    refine mem_append_left _ (mem_flatMap.2 ⟨arg, harg, ?_⟩)
    exact mem_append_left _ hc
  · intro h c hc
    rcases mem_append.1 hc with hc | hc
    · obtain ⟨arg, harg, hc⟩ := mem_flatMap.1 hc
      rcases mem_append.1 hc with hc | hc
      · exact h arg harg c hc
      · rw [mem_singleton.1 hc]
        decide
    · rw [eq_of_mem_replicate hc]
      decide

/-- The image keeps its length exactly if every character is one byte. -/
theorem length_imageOf (hdata : 512 ≤ data.length) (hshort : (joined args).length ≤ 128) :
    (imageOf args data).length = data.length ↔ ∀ arg ∈ args, ∀ c ∈ arg, c.val ≤ 0x7f := by
  obtain ⟨hle, hiff⟩ := length_utf8 (ljust (joined args) 128)
  rw [length_ljust hshort] at hle hiff
  rw [← ascii_ljust_joined, ← hiff, imageOf, packU32]
  simp only [length_append, length_take, length_bytesLE, length_drop]
  omega

/-- Outside the arguments an image of ASCII arguments has the bytes of the old one. -/
theorem imageOf_unchanged (hdata : 512 ≤ data.length) (hshort : (joined args).length ≤ 128)
    (hascii : ∀ arg ∈ args, ∀ c ∈ arg, c.val ≤ 0x7f) (hi : i < 0x17a ∨ 0x1fe ≤ i) :
    (imageOf args data)[i]? = data[i]? := by
  have hutf8 : (utf8 (ljust (joined args) 128)).length = 128 := by
    rw [(length_utf8 _).2.2 (ascii_ljust_joined.2 hascii), length_ljust hshort]
  have htake : (data.take 0x17a).length = 0x17a := by
    rw [length_take]
    omega
  have hpack : (packU32 args.length).length = 4 := rfl
  rcases hi with hi | hi
  · rw [imageOf, append_assoc, append_assoc, List.getElem?_append_left (by omega),
      List.getElem?_take_of_lt hi]
  · have hbefore :
      (data.take 0x17a ++ packU32 args.length ++ utf8 (ljust (joined args) 128)).length =
        0x1fe := by
      rw [length_append, length_append, htake, hpack, hutf8]
    rw [imageOf, List.getElem?_append_right (by omega), hbefore, List.getElem?_drop,
      Nat.add_sub_cancel' hi]

/-- The number of the arguments and their bytes are where the kernel looks for them. -/
theorem mem_imageOf {mem : Bytes} (hmem : Loaded mem (imageOf args data))
    (hdata : 512 ≤ data.length) (hshort : (joined args).length ≤ 128) :
    readLE mem 4 loaderArgCnt = args.length % 2 ^ 32 ∧
      ((∀ arg ∈ args, ∀ c ∈ arg, c.val ≤ 0x7f) →
        Holds mem loaderArgs (utf8 (ljust (joined args) 128))) := by
  have htake : (data.take 0x17a).length = 0x17a := by
    rw [length_take]
    omega
  have hpack : (packU32 args.length).length = 4 := rfl
  constructor
  · apply readLE_of_byteLE
    intro i hi
    have hbyte := hmem (0x17a + i) (by omega)
    rw [← Nat.add_assoc] at hbyte
    refine hbyte.trans ?_
    rw [imageOf, append_assoc, append_assoc, getD_append_right _ _ _ _ (by omega), htake,
      getD_append _ _ _ _ (by omega), Nat.add_sub_cancel_left, packU32, getD_bytesLE hi]
  · intro hascii
    have hutf8 : (utf8 (ljust (joined args) 128)).length = 128 := by
      rw [(length_utf8 _).2.2 (ascii_ljust_joined.2 hascii), length_ljust hshort]
    apply holds_iff.2
    intro j hj
    have hbyte := hmem (0x17e + j) (by omega)
    rw [← add_assoc] at hbyte
    refine hbyte.trans ?_
    have hbefore : (data.take 0x17a ++ packU32 args.length).length = 0x17e := by
      rw [length_append, htake, hpack]
    rw [imageOf, append_assoc, getD_append_right _ _ _ _ (by omega), hbefore,
      getD_append _ _ _ _ (by omega), Nat.add_sub_cancel_left]

end Image

/-- **The command line from the utility to the kernel.** For arguments without `\0` that the utility
accepts, the image is kept and the kernel reads the same arguments if and only if they are all ASCII
and there are at most `LOADER_ARGS_LEN / 2` of them. -/
theorem commandLine_roundTrip_iff {selfArgs puts gets args : List Text} {data image : List UInt8}
    {mem : Bytes} (hargs : kernelArguments selfArgs puts gets = .ok args)
    (hnul : ∀ arg ∈ args, '\x00' ∉ arg)
    (haccept : prepareKernelArgument selfArgs puts gets data = .ok image)
    (hdata : 512 ≤ data.length)
    (hmem : Loaded mem image) :
    RoundTrip data image args mem ↔
      (∀ arg ∈ args, ∀ c ∈ arg, c.val ≤ 0x7f) ∧ args.length ≤ loaderArgsLen / 2 := by
  obtain ⟨args', hargs', hshort, rfl⟩ := prepareKernelArgument_ok haccept
  obtain rfl : args = args' := Except.ok.inj (hargs.symm.trans hargs')
  obtain ⟨hcnt, hholds⟩ := mem_imageOf hmem hdata hshort
  constructor
  · intro h
    exact ⟨(length_imageOf hdata hshort).1 h.length, h.room⟩
  · rintro ⟨hascii, hroom⟩
    have hlen : args.length < 2 ^ 32 := by
      have hroom' : args.length ≤ 64 := hroom
      omega
    rw [Nat.mod_eq_of_lt hlen] at hcnt
    have hpadded := hholds hascii
    rw [ljust, utf8_append, utf8_joined, holds_append] at hpadded
    have hstrings : StringsIn mem loaderArgs (args.map utf8) := by
      refine ⟨hpadded.1, ?_, le_refl _, ?_⟩
      · intro b hb
        obtain ⟨arg, harg, rfl⟩ := mem_map.1 hb
        exact zero_notMem_utf8 (hascii arg harg) (hnul arg harg)
      · have hjoined : ∀ c ∈ joined args, c.val ≤ 0x7f := fun c hc =>
          ascii_ljust_joined.2 hascii c (mem_append_left _ hc)
        rw [← utf8_joined, (length_utf8 _).2.2 hjoined]
        exact Nat.add_le_add_left hshort _
    have hmap : (args.map utf8).length = args.length := length_map ..
    rw [← hmap] at hcnt hroom
    obtain ⟨printed, hread⟩ := readCommandLine_eq hstrings hcnt hroom
    refine ⟨(length_imageOf hdata hshort).2 hascii,
      fun i hi => imageOf_unchanged hdata hshort hascii hi, _, printed, hread, ?_, ?_⟩
    · intro i arg harg
      have hi : (args.map utf8)[i]? = some (utf8 arg) := by
        rw [List.getElem?_map, harg]
        rfl
      obtain ⟨q, hq, hstring⟩ := hstrings.getElem hi
      have hends := hstring.ends
      have hbegins := hstring.begins
      refine ⟨q, ?_, stringAt_eq hstring (by omega)⟩
      rw [List.getElem?_append_left, List.getElem?_map, hq]
      · rfl
      · rw [length_map]
        exact (List.getElem?_eq_some_iff.1 hq).1
    · have hfilled : ((pointers loaderArgs (args.map utf8)).map some).length = args.length := by
        rw [length_map, length_pointers, hmap]
      rw [List.getElem?_append_right hfilled.le, hfilled, Nat.sub_self, List.getElem?_replicate]
      exact if_pos (by omega)

/-- A boot sector of zeros. -/
def blankImage : List UInt8 := List.replicate 512 0

theorem length_blankImage : 512 ≤ blankImage.length := length_replicate.ge

theorem commandLine_roundTrip_iff_run : ∃ image mem,
    prepareKernelArgument [['-', 'q'], ['r', 'u', 'n']] [['a']] [] blankImage = .ok image ∧
    RoundTrip blankImage image [['-', 'q'], ['p', 'u', 't'], ['a'], ['r', 'u', 'n']] mem := by
  have hargs : kernelArguments [['-', 'q'], ['r', 'u', 'n']] [['a']] [] =
      .ok [['-', 'q'], ['p', 'u', 't'], ['a'], ['r', 'u', 'n']] := rfl
  have haccept : prepareKernelArgument [['-', 'q'], ['r', 'u', 'n']] [['a']] [] blankImage =
      .ok (imageOf [['-', 'q'], ['p', 'u', 't'], ['a'], ['r', 'u', 'n']] blankImage) := rfl
  refine ⟨_,
    fun a => (imageOf [['-', 'q'], ['p', 'u', 't'], ['a'], ['r', 'u', 'n']] blankImage).getD
    (a - loaderBase) 0, haccept, ?_⟩
  have hascii : ∀ arg ∈ [['-', 'q'], ['p', 'u', 't'], ['a'], ['r', 'u', 'n']],
      ∀ c ∈ arg, c.val ≤ 0x7f := by
    have hall : [['-', 'q'], ['p', 'u', 't'], ['a'], ['r', 'u', 'n']].all
        (fun arg => arg.all fun c => c.val ≤ 0x7f) = true := by decide
    intro arg harg c hc
    exact of_decide_eq_true (all_eq_true.1 (all_eq_true.1 hall arg harg) c hc)
  refine (commandLine_roundTrip_iff hargs (by decide) haccept length_blankImage ?_).2
    ⟨hascii, by decide⟩
  intro i _
  show List.getD _ (loaderBase + i - loaderBase) 0 = _
  rw [Nat.add_sub_cancel_left]

/-- Both limits are missed: one letter that is not ASCII moves the rest of the image by a byte, and
65 arguments do not fit `argv`. -/
theorem commandLine_overflows :
    (∃ image, prepareKernelArgument [['r', 'u', 'n'], ['é']] [] [] blankImage = .ok image ∧
      ∀ mem, ¬ RoundTrip blankImage image [['r', 'u', 'n'], ['é']] mem) ∧
    (∃ image, prepareKernelArgument (['r'] :: List.replicate 64 []) [] [] blankImage = .ok image ∧
      ∀ mem, ¬ RoundTrip blankImage image (['r'] :: List.replicate 64 []) mem) := by
  constructor
  · refine ⟨imageOf [['r', 'u', 'n'], ['é']] blankImage, rfl, fun mem h => ?_⟩
    have hascii := (length_imageOf length_blankImage (by decide)).1 h.length
    exact absurd (hascii ['é'] (by decide) 'é' (by decide)) (by decide)
  · refine ⟨imageOf (['r'] :: List.replicate 64 []) blankImage, rfl, fun mem h => ?_⟩
    exact absurd h.room (by decide)

end Pintos.Utils.CommandLine
