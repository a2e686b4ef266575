import Pintos.Threads.Mmu
import Pintos.Userprog.Elf

/-!
# Loading an executable

`load` of `userprog/process.c` with the functions it calls, in the build without virtual memory. The
sizes and addresses of a program header are 64-bit numbers; `load` narrows them to the 32-bit
counters `read_bytes` and `zero_bytes` and to the offset type of the file system, and the reductions
are written where the source narrows. The page loop of `load_segment` runs on a bound on its
iterations, and panics with `loadSegmentEndless` at the bound, so that an endless loop would show as
a panic.

`load` also returns the program headers it has processed, which the source does not; the statements
about the image need them.
-/

set_option autoImplicit false

namespace Pintos.Userprog.Load

open Lib.StateExcept Lib.ByteMemory
open Threads.Vaddr Threads.Palloc Threads.Mmu
open Elf

/-- `validate_segment`. -/
def validateSegment (phdr : Phdr) (file : File) : Bool :=
  -- p_offset and p_vaddr must have the same page offset
  if phdr.offset &&& pgMask ≠ phdr.vaddr &&& pgMask then false
  -- p_offset must point within the file
  else if (phdr.offset : Int) > fileLength file then false
  else if phdr.memsz < phdr.filesz then false
  else if phdr.memsz = 0 then false
  -- the region must start and end within the user address space
  else if ¬ isUserVaddr phdr.vaddr then false
  else if ¬ isUserVaddr ((phdr.vaddr + phdr.memsz) % 2 ^ 64) then false
  -- and must not wrap around
  else if (phdr.vaddr + phdr.memsz) % 2 ^ 64 < phdr.vaddr then false
  else if phdr.vaddr < pgSize then false
  else true

/-- `ROUND_UP (x, PGSIZE)` on 64-bit numbers. -/
def roundUp (x : Nat) : Nat := (x + pgSize - 1) % 2 ^ 64 / pgSize * pgSize

/-- The 32-bit counters of the page loop. -/
structure Counters where
  readBytes : Nat
  zeroBytes : Nat
  deriving DecidableEq

/-- The counters that `load` computes for a segment. -/
def segmentCounters (phdr : Phdr) : Counters :=
  let pageOffset := phdr.vaddr &&& pgMask
  if phdr.filesz > 0 then
    let readBytes := (pageOffset + phdr.filesz) % 2 ^ 32
    ⟨readBytes, (roundUp ((pageOffset + phdr.memsz) % 2 ^ 64) + 2 ^ 64 - readBytes) % 2 ^ 32⟩
  else
    ⟨0, roundUp ((pageOffset + phdr.memsz) % 2 ^ 64) % 2 ^ 32⟩

/-- How many bytes of the next page come from the file. -/
def Counters.pageReadBytes (c : Counters) : Nat :=
  if c.readBytes < pgSize then c.readBytes else pgSize

/-- How many bytes of the next page are zero. -/
def Counters.pageZeroBytes (c : Counters) : Nat := pgSize - c.pageReadBytes

/-- The counters after one page, with the wrap of 32-bit subtraction. -/
def Counters.advance (c : Counters) : Counters :=
  ⟨(c.readBytes + 2 ^ 32 - c.pageReadBytes) % 2 ^ 32,
    (c.zeroBytes + 2 ^ 32 - c.pageZeroBytes) % 2 ^ 32⟩

/-- `install_page`: map `upage` unless something is mapped there. -/
def installPage (pml4 upage kpage : Nat) (writable : Bool) : KernelM Bool := do
  match ← pml4GetPage pml4 upage with
  | some _ => return false
  | none => pml4SetPage pml4 upage kpage writable

/-- The body of the loop of `load_segment`: fill one page and map it at `upage`. The file after the
read, or `none` where the function returns false. -/
def loadPage (pml4 : Nat) (writable : Bool) (file : File) (upage : Nat) (c : Counters) :
    KernelM (Option File) := do
  match ← pallocGetPage { user := true } with
  | none => return none
  | some kpage =>
    let (bytesRead, file') := fileRead file c.pageReadBytes
    modify fun s => { s with mem := patch s.mem kpage bytesRead file.ahead }
    if bytesRead ≠ c.pageReadBytes then
      pallocFreePage kpage
      return none
    modify fun s => { s with mem := fill s.mem (kpage + c.pageReadBytes) c.pageZeroBytes 0 }
    if ← installPage pml4 upage kpage writable then
      return some file'
    else
      pallocFreePage kpage
      return none

/-- The loop of `load_segment`. -/
def loadPages (pml4 : Nat) (writable : Bool) : Nat → File → Nat → Counters → KernelM Bool
  | 0, _, _, _ => throw .loadSegmentEndless
  | fuel + 1, file, upage, c => do
    if c.readBytes > 0 ∨ c.zeroBytes > 0 then
      match ← loadPage pml4 writable file upage c with
      | none => return false
      | some file' => loadPages pml4 writable fuel file' (upage + pgSize) c.advance
    else
      return true

/-- `load_segment`. -/
def loadSegment (pml4 : Nat) (file : File) (ofs : Int) (upage : Nat) (c : Counters)
    (writable : Bool) : KernelM Bool := do
  check ((c.readBytes + c.zeroBytes) % 2 ^ 32 % pgSize = 0) .loadSegmentSize
  check (pgOfs upage = 0) .loadSegmentUpage
  check (ofs.tmod pgSize = 0) .loadSegmentOfs
  let file ← fileSeek file ofs
  -- every iteration takes a page off the counters
  loadPages pml4 writable (c.readBytes + c.zeroBytes + 1) file upage c

/-- `setup_stack`: map a zeroed page below `USER_STACK`. -/
def setupStack (pml4 : Nat) : KernelM Bool := do
  match ← pallocGetPage { user := true, zero := true } with
  | none => return false
  | some kpage =>
    let success ← installPage pml4 (userStack - pgSize) kpage true
    if !success then
      pallocFreePage kpage
    return success

/-- The `switch` of `load` on the type of a program header; `false` is the jump to `done`. -/
def loadPhdr (pml4 : Nat) (phdr : Phdr) (file : File) : KernelM Bool := do
  if phdr.type = ptDynamic ∨ phdr.type = ptInterp ∨ phdr.type = ptShlib then
    return false
  else if phdr.type = ptLoad then
    if validateSegment phdr file then
      let writable := phdr.flags &&& pfW ≠ 0
      let filePage := phdr.offset &&& 0xfffffffffffff000
      let memPage := phdr.vaddr &&& 0xfffffffffffff000
      loadSegment pml4 file (toOff filePage) memPage (segmentCounters phdr) writable
    else
      return false
  else
    return true

/-- The loop of `load` over `n` program headers from the offset `fileOfs`: the headers processed, or
`none` for the jump to `done`. The position that `load_segment` leaves is not passed on, since
`file_seek` sets it anew. -/
def loadPhdrs (pml4 : Nat) (file : File) : Nat → Int → KernelM (Option (List Phdr))
  | 0, _ => return some []
  | n + 1, fileOfs => do
    if fileOfs < 0 ∨ fileOfs > fileLength file then
      return none
    let file ← fileSeek file fileOfs
    let (bytesRead, file') := fileRead file phdrSize
    if bytesRead ≠ phdrSize then
      return none
    let phdr := readPhdr file.ahead
    if ← loadPhdr pml4 phdr file' then
      let rest ← loadPhdrs pml4 file' n (toOff (fileOfs + phdrSize))
      return rest.map (phdr :: ·)
    else
      return none

/-- The registers of `struct intr_frame` that `load` sets. -/
structure IntrFrame where
  rip : Nat
  rsp : Nat

/-- What `load` leaves: its result, the thread's `pml4`, the frame, and the headers processed. -/
structure Loaded where
  success : Bool
  pml4 : Option Nat
  frame : IntrFrame
  phdrs : List Phdr

/-- `load`; the executable is `none` when `filesys_open` fails. -/
def load (exe : Option Executable) (frame : IntrFrame) : KernelM Loaded := do
  match ← pml4Create with
  | none => return ⟨false, none, frame, []⟩
  | some pml4 =>
    match exe with
    | none => return ⟨false, some pml4, frame, []⟩
    | some exe =>
      let file : File := ⟨exe, 0⟩
      let (bytesRead, file') := fileRead file ehdrSize
      let ehdr := readEhdr file.ahead
      if bytesRead ≠ ehdrSize ∨ !ehdr.accepted then
        return ⟨false, some pml4, frame, []⟩
      match ← loadPhdrs pml4 file' ehdr.phnum (toOff ehdr.phoff) with
      | none => return ⟨false, some pml4, frame, []⟩
      | some phdrs =>
        if ← setupStack pml4 then
          return ⟨true, some pml4, ⟨ehdr.entry, userStack⟩, phdrs⟩
        else
          return ⟨false, some pml4, frame, phdrs⟩

end Pintos.Userprog.Load
