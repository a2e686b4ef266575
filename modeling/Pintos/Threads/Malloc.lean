import Pintos.LibKernel.ListMemory
import Pintos.Threads.Vaddr

/-!
# The heap

The functions of `threads/malloc.c` on byte memory. Descriptors, arena headers and the links of
free blocks are read from and written to the bytes that the source has them in: `struct desc` takes
96 bytes (`block_size`, `blocks_per_arena`, the two header elements of `free_list`, the lock),
`struct arena` 24 bytes (`magic`, `desc`, `free_cnt`). The array `descs` is at an address that the
linker chooses.

The page allocator is represented by what it returns: `pages` gives the result of
`palloc_get_multiple (0, cnt)`, `used` says which pages are allocated, and `log` records what
`malloc.c` has obtained and returned. Calls come one after the other, so a descriptor's lock is
held or not held by the caller.
-/

set_option autoImplicit false

namespace Pintos.Threads.Malloc

open Function Lib.StateExcept Lib.ByteMemory
open LibKernel.List LibKernel.ListMemory
open Vaddr

/-- What `malloc.c` has had from the page allocator and given back. -/
inductive PageEvent where
  | got (pages cnt : Nat)
  | freed (pages cnt : Nat)
  deriving DecidableEq

/-- Memory, locks and pages. -/
structure MallocState where
  mem : Bytes
  /-- `desc_cnt`. -/
  descCnt : Nat
  /-- Whether the lock of the descriptor at an address is held. -/
  locked : Nat → Bool
  /-- The result of `palloc_get_multiple (0, cnt)`. -/
  pages : Nat → Option Nat
  /-- The allocated pages, by their number. -/
  used : Nat → Bool
  log : List PageEvent

/-- Failed assertions. -/
inductive MallocPanic where
  | list (p : ListPanic)
  | descCnt
  | lockHeld
  | lockNotHeld
  | arenaNull
  | arenaMagic
  | blockOffset
  | bigBlockOffset
  | blockIndex
  | freeCnt
  | pagesOffset
  | pagesUsed

/-- Code of the kernel heap. -/
abbrev MallocM (α : Type) : Type := Comp MallocState MallocPanic α

/-- `ARENA_MAGIC`. -/
def arenaMagic : Nat := 0x9a548eed

/-- `sizeof (struct arena)`. -/
def sizeofArena : Nat := 24

/-- `sizeof (struct desc)`. -/
def sizeofDesc : Nat := 96

/-- `sizeof descs / sizeof *descs`. -/
def maxDescs : Nat := 10

/-- `DIV_ROUND_UP`, on `size_t`. -/
def divRoundUp (x step : Nat) : Nat := (x + step - 1) % 2 ^ 64 / step

/-! ## Memory and locks -/

/-- Read a `size_t` or a pointer. -/
def read64 (a : Nat) : MallocM Nat := do
  return readLE (← get).mem 8 a

/-- Store a `size_t` or a pointer. -/
def write64 (a v : Nat) : MallocM Unit :=
  modify fun s => { s with mem := writeLE s.mem 8 a v }

/-- `memset`. -/
def memset (dst : Nat) (value : UInt8) (size : Nat) : MallocM Unit :=
  modify fun s => { s with mem := fill s.mem dst size value }

/-- `memcpy`. -/
def memcpy (dst src size : Nat) : MallocM Unit :=
  modify fun s => { s with mem := copy s.mem dst src size }

/-- A list function. -/
def onMem {α : Type} (c : ListM Nat α) : MallocM α := fun s =>
  match c (linksAt s.mem) with
  | .ok (a, h) => .ok (a, { s with mem := storeLinks s.mem h })
  | .error e => .error (.list e)

/-- `lock_init (&d->lock)`. -/
def lockInit (d : Nat) : MallocM Unit :=
  modify fun s => { s with locked := update s.locked d false }

/-- `lock_acquire (&d->lock)`. -/
def lockAcquire (d : Nat) : MallocM Unit := do
  check ((← get).locked d = false) .lockHeld
  modify fun s => { s with locked := update s.locked d true }

/-- `lock_release (&d->lock)`. -/
def lockRelease (d : Nat) : MallocM Unit := do
  check ((← get).locked d = true) .lockNotHeld
  modify fun s => { s with locked := update s.locked d false }

/-! ## Pages -/

/-- Whether the page number `n` is that of one of the `cnt` pages from `pages` on. -/
def inPages (pages cnt n : Nat) : Bool := pages / pgSize ≤ n && n < pages / pgSize + cnt

/-- `palloc_get_multiple (0, cnt)`. -/
def pallocGetMultiple (cnt : Nat) : MallocM (Option Nat) := do
  let s ← get
  match s.pages cnt with
  | none => return none
  | some p =>
    set { s with
      used := fun n => inPages p cnt n || s.used n
      log := s.log ++ [PageEvent.got p cnt] }
    return some p

/-- `palloc_free_multiple`. -/
def pallocFreeMultiple (pages cnt : Nat) : MallocM Unit := do
  check (pgOfs pages = 0) .pagesOffset
  if pages = 0 ∨ cnt = 0 then return
  memset pages 0xcc (pgSize * cnt)
  let s ← get
  check (∀ k < cnt, s.used (pages / pgSize + k) = true) .pagesUsed
  set { s with
    used := fun n => !inPages pages cnt n && s.used n
    log := s.log ++ [PageEvent.freed pages cnt] }

/-! ## Descriptors and arenas -/

variable (descs : Nat)

/-- `&descs[i]`. -/
def descAt (i : Nat) : Nat := descs + sizeofDesc * i

/-- `&d->free_list`. -/
def freeList (d : Nat) : KList Nat := ⟨d + 16, d + 32⟩

/-- The loop of `malloc_init`. -/
def mallocInitFrom : Nat → Nat → MallocM Unit
  | 0, _ => throw (.list .endless)
  | fuel + 1, blockSize => do
    if pgSize / 2 ≤ blockSize then return
    let d := descAt descs (← get).descCnt
    modify fun s => { s with descCnt := s.descCnt + 1 }
    check ((← get).descCnt ≤ maxDescs) .descCnt
    write64 d blockSize
    write64 (d + 8) ((pgSize - sizeofArena) / blockSize)
    onMem (listInit (freeList d))
    lockInit d
    mallocInitFrom fuel (blockSize * 2)

/-- `malloc_init`. -/
def mallocInit : MallocM Unit := mallocInitFrom descs 64 16

/-- `block_to_arena`. -/
def blockToArena (b : Nat) : MallocM Nat := do
  let a := pgRoundDown b
  check (a ≠ 0) .arenaNull
  check (readLE (← get).mem 4 a = arenaMagic) .arenaMagic
  let d ← read64 (a + 8)
  let blockSize ← read64 d
  check (d = 0 ∨ (pgOfs b + 2 ^ 64 - sizeofArena) % 2 ^ 64 % blockSize = 0) .blockOffset
  check (d ≠ 0 ∨ pgOfs b = sizeofArena) .bigBlockOffset
  return a

/-- `arena_to_block`. -/
def arenaToBlock (a idx : Nat) : MallocM Nat := do
  check (a ≠ 0) .arenaNull
  check (readLE (← get).mem 4 a = arenaMagic) .arenaMagic
  let d ← read64 (a + 8)
  check (idx < (← read64 (d + 8))) .blockIndex
  return (a + sizeofArena + idx * (← read64 d)) % 2 ^ 64

/-- Set the three fields of an arena. -/
def writeArena (a d freeCnt : Nat) : MallocM Unit := do
  modify fun s => { s with mem := writeLE s.mem 4 a arenaMagic }
  write64 (a + 8) d
  write64 (a + 16) freeCnt

/-- The part of `malloc` that makes a new arena, and says whether there was a page for it. -/
def newArena (d : Nat) : MallocM Bool := do
  match ← pallocGetMultiple 1 with
  | none => return false
  | some a =>
    let blocksPerArena ← read64 (d + 8)
    writeArena a d blocksPerArena
    (List.range blocksPerArena).forM fun i => do
      let b ← arenaToBlock a i
      onMem (listPushBack (freeList d) (some b))
    return true

/-- The part of `malloc` that takes a block from the free list. -/
def takeBlock (d : Nat) : MallocM Nat := do
  let b ← onMem (do deref (← listPopFront (freeList d)))
  let a ← blockToArena b
  write64 (a + 16) ((← read64 (a + 16)) + 2 ^ 64 - 1)
  return b

/-- The part of `malloc` for a block that is too big for any descriptor. -/
def bigBlock (pageCnt : Nat) : MallocM (Option Nat) := do
  match ← pallocGetMultiple pageCnt with
  | none => return none
  | some a =>
    writeArena a 0 pageCnt
    return some (a + sizeofArena)

/-- `malloc`. -/
def malloc (size : Nat) : MallocM (Option Nat) := do
  if size = 0 then return none
  let s ← get
  match (List.range s.descCnt).find? fun i => decide (size ≤ readLE s.mem 8 (descAt descs i)) with
  | none =>
    let pageCnt := divRoundUp ((size + sizeofArena) % 2 ^ 64) pgSize
    bigBlock pageCnt
  | some i =>
    let d := descAt descs i
    lockAcquire d
    let ready ← if ← onMem (listEmpty (freeList d)) then newArena d else pure true
    if !ready then
      lockRelease d
      return none
    let b ← takeBlock d
    lockRelease d
    return some b

/-- `block_size`. -/
def blockSize (block : Nat) : MallocM Nat := do
  let a ← blockToArena block
  let d ← read64 (a + 8)
  if d ≠ 0 then read64 d
  else return (pgSize * (← read64 (a + 16)) + 2 ^ 64 - pgOfs block) % 2 ^ 64

/-- The part of `free` that gives an arena without used blocks back. -/
def dissolve (a d : Nat) : MallocM Unit := do
  check ((← read64 (a + 16)) = (← read64 (d + 8))) .freeCnt
  (List.range (← read64 (d + 8))).forM fun i => do
    let b ← arenaToBlock a i
    let _ ← onMem (listRemove (some b))
  pallocFreeMultiple a 1

/-- `free`; zero is the null pointer. -/
def free (p : Nat) : MallocM Unit := do
  if p = 0 then return
  let a ← blockToArena p
  let d ← read64 (a + 8)
  if d ≠ 0 then
    memset p 0xcc (← read64 d)
    lockAcquire d
    onMem (listPushFront (freeList d) (some p))
    write64 (a + 16) ((← read64 (a + 16)) + 1)
    if (← read64 (d + 8)) ≤ (← read64 (a + 16)) then dissolve a d
    lockRelease d
  else pallocFreeMultiple a (← read64 (a + 16))

/-- `calloc`. -/
def calloc (a b : Nat) : MallocM (Option Nat) := do
  let size := a * b % 2 ^ 64
  if size < a ∨ size < b then return none
  match ← malloc descs size with
  | none => return none
  | some p =>
    memset p 0 size
    return some p

/-- `realloc`; zero is the null pointer. -/
def realloc (oldBlock newSize : Nat) : MallocM (Option Nat) := do
  if newSize = 0 then
    free oldBlock
    return none
  match ← malloc descs newSize with
  | none => return none
  | some newBlock =>
    if oldBlock ≠ 0 then
      let oldSize ← blockSize oldBlock
      memcpy newBlock oldBlock (if newSize < oldSize then newSize else oldSize)
      free oldBlock
    return some newBlock

/-! ## Execution of the primitives -/

section Primitives

variable (s : MallocState)

theorem wp_onMem {α : Type} (c : ListM Nat α) (Q : α → MallocState → Prop) :
    wp (onMem c) s Q ↔
      wp c (linksAt s.mem) fun a h => Q a { s with mem := storeLinks s.mem h } := by
  constructor
  · rintro ⟨a, s', hc, hQ⟩
    cases hr : c (linksAt s.mem) with
    | error e => simp [onMem, hr] at hc
    | ok p =>
      simp only [onMem, hr, Except.ok.injEq, Prod.mk.injEq] at hc
      obtain ⟨rfl, rfl⟩ := hc
      exact ⟨_, _, hr, hQ⟩
  · rintro ⟨a, h, hc, hQ⟩
    exact ⟨a, _, by simp only [onMem, hc], hQ⟩

theorem wp_read64 (a : Nat) (Q : Nat → MallocState → Prop) :
    wp (read64 a) s Q ↔ Q (readLE s.mem 8 a) s := by
  rw [read64, wp_bind, wp_get, wp_pure]

theorem wp_write64 (a v : Nat) (Q : Unit → MallocState → Prop) :
    wp (write64 a v) s Q ↔ Q () { s with mem := writeLE s.mem 8 a v } :=
  wp_modify _ s Q

theorem wp_memset (a : Nat) (v : UInt8) (n : Nat) (Q : Unit → MallocState → Prop) :
    wp (memset a v n) s Q ↔ Q () { s with mem := fill s.mem a n v } :=
  wp_modify _ s Q

theorem wp_memcpy (dst src n : Nat) (Q : Unit → MallocState → Prop) :
    wp (memcpy dst src n) s Q ↔ Q () { s with mem := copy s.mem dst src n } :=
  wp_modify _ s Q

theorem wp_lockAcquire (d : Nat) (Q : Unit → MallocState → Prop) :
    wp (lockAcquire d) s Q ↔
      s.locked d = false ∧ Q () { s with locked := update s.locked d true } := by
  rw [lockAcquire, wp_bind, wp_get, wp_bind, wp_check, wp_modify]

theorem wp_lockRelease (d : Nat) (Q : Unit → MallocState → Prop) :
    wp (lockRelease d) s Q ↔
      s.locked d = true ∧ Q () { s with locked := update s.locked d false } := by
  rw [lockRelease, wp_bind, wp_get, wp_bind, wp_check, wp_modify]

end Primitives

end Pintos.Threads.Malloc
