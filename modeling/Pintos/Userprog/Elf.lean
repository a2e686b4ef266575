import Pintos.Threads.Palloc

/-!
# Executable files

The file a process is loaded from, the calls of `filesys/file.c` that the loader makes, and the ELF
structures of `userprog/process.c`. A file holds fewer than `2 ^ 31` bytes, since `off_t` is a
signed 32-bit type, and reads return its bytes. The structures are read from the little-endian
bytes; the fields that the loader never looks at (`e_shoff`, `e_flags`, `e_ehsize`, the section
header fields, `p_paddr` and `p_align`) are left out.
-/

set_option autoImplicit false

namespace Pintos.Userprog.Elf

open Lib.StateExcept Lib.ByteMemory
open Threads.Palloc

/-! ## Files -/

/-- The content of a file. -/
structure Executable where
  bytes : List UInt8
  length_lt : bytes.length < 2 ^ 31

/-- The byte at an offset, `0` past the end. -/
def Executable.byte (exe : Executable) (i : Nat) : UInt8 := exe.bytes.getD i 0

/-- `struct file`: the content and the current position. -/
structure File where
  exe : Executable
  pos : Nat

/-- `file_length`. -/
def fileLength (file : File) : Int := file.exe.bytes.length

/-- `file_seek`. -/
def fileSeek (file : File) (newPos : Int) : KernelM File := do
  check (0 ≤ newPos) .fileSeekNonneg
  return { file with pos := newPos.toNat }

/-- The bytes from the current position on. -/
def File.ahead (file : File) : Nat → UInt8 := fun i => file.exe.byte (file.pos + i)

/-- `file_read`: how many bytes are read, from the current position, and the file after that. -/
def fileRead (file : File) (size : Nat) : Nat × File :=
  let bytesRead := min size (file.exe.bytes.length - file.pos)
  (bytesRead, { file with pos := file.pos + bytesRead })

/-- Conversion to `off_t`. -/
def toOff (x : Int) : Int := x.bmod (2 ^ 32)

theorem toOff_of_lt {x : Int} (h0 : 0 ≤ x) (h : x < 2 ^ 31) : toOff x = x := by
  rw [toOff, Int.bmod_def]
  omega

/-- A conversion that gives an offset below `2 ^ 31` is exact for numbers below `2 ^ 32`. -/
theorem toOff_nonneg {x : Nat} (hx : x < 2 ^ 32) (h : 0 ≤ toOff x) : toOff x = x := by
  rw [toOff, Int.bmod_def] at h ⊢
  omega

@[simp] theorem wp_fileSeek (file : File) (newPos : Int) (s : Machine)
    (Q : File → Machine → Prop) :
    wp (fileSeek file newPos) s Q ↔ 0 ≤ newPos ∧ Q { file with pos := newPos.toNat } s := by
  simp [fileSeek]

/-- A read that returns all it was asked for lies within the file. -/
theorem fileRead_full {file : File} {size : Nat} (h : (fileRead file size).1 = size) :
    size = 0 ∨ file.pos + size ≤ file.exe.bytes.length := by
  simp only [fileRead] at h
  omega

/-! ## ELF headers -/

/-- `struct ELF64_hdr`. -/
structure Ehdr where
  ident : List UInt8
  type : Nat
  machine : Nat
  version : Nat
  entry : Nat
  phoff : Nat
  phentsize : Nat
  phnum : Nat

/-- `sizeof (struct ELF64_hdr)`. -/
def ehdrSize : Nat := 64

/-- The header stored in the bytes `b`. -/
def readEhdr (b : Nat → UInt8) : Ehdr where
  ident := (List.range 16).map b
  type := readLE b 2 16
  machine := readLE b 2 18
  version := readLE b 4 20
  entry := readLE b 8 24
  phoff := readLE b 8 32
  phentsize := readLE b 2 54
  phnum := readLE b 2 56

/-- `sizeof (struct ELF64_PHDR)`. -/
def phdrSize : Nat := 56

/-- The tests of `load` on the executable header. -/
def Ehdr.accepted (ehdr : Ehdr) : Bool :=
  ehdr.ident.take 7 = [0x7f, 0x45, 0x4c, 0x46, 2, 1, 1] ∧ ehdr.type = 2 ∧ ehdr.machine = 0x3e ∧
    ehdr.version = 1 ∧ ehdr.phentsize = phdrSize ∧ ¬ ehdr.phnum > 1024

/-- `struct ELF64_PHDR`: 32-bit type and flags, 64-bit offset, address and sizes. -/
structure Phdr where
  type : Nat
  flags : Nat
  offset : Nat
  vaddr : Nat
  filesz : Nat
  memsz : Nat
  offset_lt : offset < 2 ^ 64
  vaddr_lt : vaddr < 2 ^ 64
  filesz_lt : filesz < 2 ^ 64
  memsz_lt : memsz < 2 ^ 64
  deriving DecidableEq

theorem readLE_eight_lt (b : Nat → UInt8) (a : Nat) : readLE b 8 a < 2 ^ 64 :=
  readLE_lt b 8 a

/-- The program header stored in the bytes `b`. -/
def readPhdr (b : Nat → UInt8) : Phdr where
  type := readLE b 4 0
  flags := readLE b 4 4
  offset := readLE b 8 8
  vaddr := readLE b 8 16
  filesz := readLE b 8 32
  memsz := readLE b 8 40
  offset_lt := readLE_eight_lt b 8
  vaddr_lt := readLE_eight_lt b 16
  filesz_lt := readLE_eight_lt b 32
  memsz_lt := readLE_eight_lt b 40

/-- The executable header of a file. -/
def Executable.ehdr (exe : Executable) : Ehdr := readEhdr exe.byte

/-- The program header stored at an offset of a file. -/
def Executable.phdrAt (exe : Executable) (ofs : Nat) : Phdr := readPhdr fun i => exe.byte (ofs + i)

/-- `PT_LOAD`: a loadable segment. -/
def ptLoad : Nat := 1

/-- `PT_DYNAMIC`: dynamic linking info. -/
def ptDynamic : Nat := 2

/-- `PT_INTERP`: name of dynamic loader. -/
def ptInterp : Nat := 3

/-- `PT_SHLIB`: reserved. -/
def ptShlib : Nat := 5

/-- `PF_W`: writable. -/
def pfW : Nat := 2

end Pintos.Userprog.Elf
