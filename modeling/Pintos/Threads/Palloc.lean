import Pintos.Lib.StateExcept
import Pintos.Lib.ByteMemory
import Pintos.Threads.Vaddr

/-!
# The machine and the page allocator

`Machine` is what the page-table code works on: the bytes of the kernel's address space, the two
page pools of `threads/palloc.c`, and the global `base_pml4`. A page is named by its frame number,
so that the address of a frame is page aligned and lies in the kernel's address space by
construction (`kva_facts`).

`palloc_get_page` searches a pool's bitmap under the pool's lock. Other threads allocate and free
at the same time, so the outcome of the search is left open: `answers` lists what the searches to
come find, a free page of the pool or nothing. An answer that is not a free page of the requested
pool counts as nothing, so every list of answers is a possible behaviour of the allocator.
-/

set_option autoImplicit false

namespace Pintos.Threads.Palloc

open Lib.StateExcept Lib.ByteMemory Vaddr

/-- Number of frames whose kernel virtual address fits in 64 bits. -/
def frameCnt : Nat := 2 ^ 52 - 0x8004000

/-- A physical page. -/
abbrev Frame : Type := Fin frameCnt

/-- The kernel virtual address of a frame. -/
def kva (f : Frame) : Nat := kernBase + 4096 * f.val

/-- The frame at a kernel virtual address. -/
def frameOf (a : Nat) : Option Frame :=
  if h : kernBase ≤ a ∧ a < 2 ^ 64 then
    some ⟨(a - kernBase) / 4096, by simp only [frameCnt, kernBase] at h ⊢; omega⟩
  else none

/-- The two pools. -/
inductive Pool where
  | kernel
  | user
  deriving DecidableEq

/-- `enum palloc_flags`: `PAL_ASSERT`, `PAL_ZERO` and `PAL_USER`. -/
structure PallocFlags where
  assert : Bool := false
  zero : Bool := false
  user : Bool := false

/-- The pool a request is served from. -/
def PallocFlags.pool (flags : PallocFlags) : Pool := if flags.user then .user else .kernel

/-- Why the kernel stops: a failed `ASSERT`, named by its function and condition, the `PANIC` of
`palloc_get_multiple`, a `NOT_REACHED`, or a loop that does not end. -/
inductive Panic where
  | vtopKernelVaddr
  | pallocOutOfPages
  | pallocFreeAligned
  | pallocFreeNotReached
  | pallocFreeUsed
  | getPageUserVaddr
  | setPageUpageAligned
  | setPageKpageAligned
  | setPageUserVaddr
  | setPageBasePml4
  | clearPageAligned
  | clearPageUserVaddr
  | destroyBasePml4
  | fileSeekNonneg
  | loadSegmentSize
  | loadSegmentUpage
  | loadSegmentOfs
  | loadSegmentEndless
  deriving DecidableEq

/-- Memory, page pools and the base page map. -/
structure Machine where
  /-- The bytes at the kernel virtual addresses. -/
  mem : Bytes
  /-- The pool that a frame belongs to, if any. -/
  poolOf : Frame → Option Pool
  /-- The bits of the pools' `used_map`. -/
  used : Frame → Bool
  /-- What the next searches of a pool find. -/
  answers : List (Option Frame)
  /-- `base_pml4`. -/
  basePml4 : Nat

/-- Kernel code on the machine. -/
abbrev KernelM (α : Type) : Type := Comp Machine Panic α

/-- The 64-bit word at `a`. -/
def read64 (a : Nat) : KernelM Nat := do
  return readLE (← get).mem 8 a

/-- Store a 64-bit word at `a`. -/
def write64 (a v : Nat) : KernelM Unit :=
  modify fun s => { s with mem := writeLE s.mem 8 a v }

/-- The physical address of a kernel virtual address. -/
def vtop (va : Nat) : KernelM Nat := do
  check (isKernelVaddr va) .vtopKernelVaddr
  return va - kernBase

/-- The page that the next search of `pool` finds. -/
def Machine.found (s : Machine) (pool : Pool) : Option Frame :=
  match s.answers with
  | some f :: _ => if s.poolOf f = some pool ∧ s.used f = false then some f else none
  | _ => none

/-- The machine after the search for `flags` has found the frame `f`. -/
def Machine.take (s : Machine) (flags : PallocFlags) (f : Frame) : Machine :=
  { s with
    used := Function.update s.used f true
    answers := s.answers.tail
    mem := if flags.zero then fill s.mem (kva f) pgSize 0 else s.mem }

/-- `palloc_get_page`: a page of the pool, or `none` for the null pointer. -/
def pallocGetPage (flags : PallocFlags) : KernelM (Option Nat) := do
  let s ← get
  match s.found flags.pool with
  | some f =>
    set (s.take flags f)
    return some (kva f)
  | none =>
    set { s with answers := s.answers.tail }
    if flags.assert then throw .pallocOutOfPages
    return none

/-- The machine after the frame `f` has been given back; freed pages are filled with `0xcc`. -/
def Machine.release (s : Machine) (f : Frame) : Machine :=
  { s with
    used := Function.update s.used f false
    mem := fill s.mem (kva f) pgSize 0xcc }

/-- `palloc_free_page`. -/
def pallocFreePage (page : Nat) : KernelM Unit := do
  check (pgOfs page = 0) .pallocFreeAligned
  if page = 0 then return
  let s ← get
  match frameOf page with
  | none => throw .pallocFreeNotReached
  | some f =>
    if s.poolOf f = none then throw .pallocFreeNotReached
    check (s.used f = true) .pallocFreeUsed
    set (s.release f)

/-! ## Frames and their addresses -/

/-- Frame addresses are page aligned and lie in the kernel's 64-bit address space. -/
theorem kva_facts (f : Frame) :
    kva f % 4096 = 0 ∧ isKernelVaddr (kva f) ∧ kva f + 4096 ≤ 2 ^ 64 := by
  have h := f.isLt
  simp only [frameCnt] at h
  simp only [kva, isKernelVaddr, kernBase]
  omega

variable {f g : Frame}

theorem kva_injective (h : kva f = kva g) : f = g := by
  simp only [kva] at h
  exact Fin.ext (by omega)

theorem frameOf_kva (f : Frame) : frameOf (kva f) = some f := by
  obtain ⟨-, hk, hlt⟩ := kva_facts f
  have h : kernBase ≤ kva f ∧ kva f < 2 ^ 64 := ⟨hk, by omega⟩
  simp only [frameOf, h, and_self, dif_pos, Option.some.injEq]
  simp [kva]

/-- The pages of two frames do not overlap. -/
theorem kva_disjoint (h : f ≠ g) : kva f + 4096 ≤ kva g ∨ kva g + 4096 ≤ kva f := by
  have hne : f.val ≠ g.val := fun e => h (Fin.ext e)
  simp only [kva]
  omega

theorem ptov_physical (f : Frame) : ptov (4096 * f.val) = kva f := by
  obtain ⟨-, -, hlt⟩ := kva_facts f
  simp only [kva] at hlt
  rw [ptov, kva, Nat.mod_eq_of_lt (by omega), Nat.add_comm]

/-! ## Rules for the primitives -/

section Rules

variable {s : Machine} {flags : PallocFlags} {Q : Option Nat → Machine → Prop}

/-- Reading a word and going on with it. -/
theorem read64_bind {α : Type} (a : Nat) (k : Nat → KernelM α) :
    (read64 a >>= k) s = k (readLE s.mem 8 a) s := rfl

@[simp] theorem wp_read64 (a : Nat) (Q : Nat → Machine → Prop) :
    wp (read64 a) s Q ↔ Q (readLE s.mem 8 a) s := by
  simp [read64]

@[simp] theorem wp_write64 (a v : Nat) (Q : Unit → Machine → Prop) :
    wp (write64 a v) s Q ↔ Q () { s with mem := writeLE s.mem 8 a v } := by
  simp [write64]

@[simp] theorem wp_vtop (va : Nat) (Q : Nat → Machine → Prop) :
    wp (vtop va) s Q ↔ isKernelVaddr va ∧ Q (va - kernBase) s := by
  simp [vtop]

theorem wp_vtop_kva (f : Frame) (Q : Nat → Machine → Prop) :
    wp (vtop (kva f)) s Q ↔ Q (4096 * f.val) s := by
  have hk := (kva_facts f).2.1
  have e : kva f - kernBase = 4096 * f.val := by simp [kva]
  rw [wp_vtop, e]
  exact and_iff_right hk

/-- A page in use is not a free one. -/
theorem ne_of_used (hf : s.used f = true) (hg : s.used g = false) : f ≠ g := by
  rintro rfl
  rw [hf] at hg
  cases hg

theorem found_spec {pool : Pool} (h : s.found pool = some f) :
    s.answers = some f :: s.answers.tail ∧ s.poolOf f = some pool ∧ s.used f = false := by
  unfold Machine.found at h
  split at h
  · rename_i f' rest hans
    split at h
    · cases h
      exact ⟨by rw [hans]; rfl, by assumption⟩
    · cases h
  · cases h

/-- A request without `PAL_ASSERT` either takes the free page of its pool that the search finds, or
finds nothing. -/
theorem wp_pallocGetPage_answer (hflags : flags.assert = false)
    (hsome : ∀ f, s.answers = some f :: s.answers.tail → s.poolOf f = some flags.pool →
      s.used f = false → Q (some (kva f)) (s.take flags f))
    (hnone : Q none { s with answers := s.answers.tail }) :
    wp (pallocGetPage flags) s Q := by
  rw [pallocGetPage, wp_bind, wp_get]
  cases hf : s.found flags.pool with
  | none => simpa [hflags] using hnone
  | some f =>
    obtain ⟨hans, hpool, hfree⟩ := found_spec hf
    simpa using hsome f hans hpool hfree

/-- The same, when it does not matter which search found the page. -/
theorem wp_pallocGetPage (hflags : flags.assert = false)
    (hsome : ∀ f, s.poolOf f = some flags.pool → s.used f = false →
      Q (some (kva f)) (s.take flags f)) (hnone : Q none { s with answers := s.answers.tail }) :
    wp (pallocGetPage flags) s Q :=
  wp_pallocGetPage_answer hflags (fun f _ => hsome f) hnone

theorem wlp_pallocGetPage (hsome : ∀ f, s.poolOf f = some flags.pool → s.used f = false →
      Q (some (kva f)) (s.take flags f))
    (hnone : flags.assert = false → Q none { s with answers := s.answers.tail }) :
    wlp (pallocGetPage flags) s Q := by
  rw [pallocGetPage, wlp_bind, wlp_get]
  cases hf : s.found flags.pool with
  | none =>
    cases ha : flags.assert with
    | true => simp
    | false => simpa using hnone ha
  | some f =>
    obtain ⟨-, hpool, hfree⟩ := found_spec hf
    simpa using hsome f hpool hfree

theorem wp_pallocFreePage {Q : Unit → Machine → Prop} (hpool : s.poolOf f ≠ none)
    (hused : s.used f = true) (h : Q () (s.release f)) : wp (pallocFreePage (kva f)) s Q := by
  obtain ⟨ha, hk, -⟩ := kva_facts f
  have hne : kva f ≠ 0 := by
    simp only [isKernelVaddr, kernBase] at hk
    omega
  simp [pallocFreePage, pgOfs_eq, ha, hne, frameOf_kva, hpool, hused, h]

end Rules

end Pintos.Threads.Palloc
