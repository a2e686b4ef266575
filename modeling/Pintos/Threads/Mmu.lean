import Pintos.Threads.Palloc

/-!
# Page maps

The functions of `threads/mmu.c` that build and read page maps, and `paging_init` of
`threads/init.c`. A table is a page of 512 little-endian words; a null pointer is `none` in a
result and `0` in an argument. `pml4e_walk` and `pdpe_walk` are one function of the level
(`walkLevel`); `pgdir_walk`, the last level, has nothing to undo and is its own function. In the
same way `pgdir_for_each`, `pdp_for_each` and `pml4_for_each` are one function of the level, and so
are `pt_destroy`, `pgdir_destroy` and `pdpe_destroy`. The TLB is not modelled: `invlpg` and `lcr3`
have no effect on memory.
-/

set_option autoImplicit false

namespace Pintos.Threads.Mmu

open Lib.StateExcept Lib.ByteMemory
open Vaddr Palloc

/-- `pgdir_walk`: the address of the page-table entry for `va`. -/
def pgdirWalk (pdp va : Nat) (create : Bool) : KernelM (Option Nat) := do
  let idx := pdx va
  if pdp = 0 then return none
  let pte ← read64 (pdp + 8 * idx)
  if pte &&& pteP = 0 then
    if create then
      match ← pallocGetPage { zero := true } with
      | some newPage =>
        let pa ← vtop newPage
        write64 (pdp + 8 * idx) (pa ||| pteU ||| pteW ||| pteP)
        let pte ← read64 (pdp + 8 * idx)
        return some (ptov (pteAddr pte + 8 * ptx va))
      | none => return none
    else
      return none
  else
    return some (ptov (pteAddr pte + 8 * ptx va))

/-- The common body of `pdpe_walk` and `pml4e_walk`: find or make the table that the entry for
`va` names, let `next` walk it, and undo the new table when `next` fails. -/
def walkLevel (index : Nat → Nat) (next : Nat → Nat → Bool → KernelM (Option Nat))
    (table va : Nat) (create : Bool) : KernelM (Option Nat) := do
  let idx := index va
  if table = 0 then return none
  let entry ← read64 (table + 8 * idx)
  if entry &&& pteP = 0 then
    if create then
      match ← pallocGetPage { zero := true } with
      | some newPage =>
        let pa ← vtop newPage
        write64 (table + 8 * idx) (pa ||| pteU ||| pteW ||| pteP)
        let entry ← read64 (table + 8 * idx)
        let pte ← next (ptov (pteAddr entry)) va create
        match pte with
        | some _ => return pte
        | none =>
          let entry ← read64 (table + 8 * idx)
          pallocFreePage (ptov (pteAddr entry))
          write64 (table + 8 * idx) 0
          return none
      | none => return none
    else
      return none
  else
    next (ptov (pteAddr entry)) va create

/-- `pdpe_walk`. -/
def pdpeWalk : Nat → Nat → Bool → KernelM (Option Nat) := walkLevel pdpeIndex pgdirWalk

/-- `pml4e_walk`. -/
def pml4eWalk : Nat → Nat → Bool → KernelM (Option Nat) := walkLevel pml4Index pdpeWalk

/-- `pml4_create`: a copy of the top level of the base page map. -/
def pml4Create : KernelM (Option Nat) := do
  match ← pallocGetPage {} with
  | some pml4 =>
    modify fun s => { s with mem := copy s.mem pml4 s.basePml4 pgSize }
    return some pml4
  | none => return none

/-- `pml4_get_page`: the kernel virtual address that `uaddr` is mapped to. -/
def pml4GetPage (pml4 uaddr : Nat) : KernelM (Option Nat) := do
  check (isUserVaddr uaddr) .getPageUserVaddr
  match ← pml4eWalk pml4 uaddr false with
  | some pte =>
    let entry ← read64 pte
    if entry &&& pteP = 0 then return none
    else return some (ptov (pteAddr entry) + pgOfs uaddr)
  | none => return none

/-- `pml4_set_page`: map the user page `upage` to the frame at `kpage`. -/
def pml4SetPage (pml4 upage kpage : Nat) (rw : Bool) : KernelM Bool := do
  check (pgOfs upage = 0) .setPageUpageAligned
  check (pgOfs kpage = 0) .setPageKpageAligned
  check (isUserVaddr upage) .setPageUserVaddr
  check (pml4 ≠ (← get).basePml4) .setPageBasePml4
  match ← pml4eWalk pml4 upage true with
  | some pte =>
    let pa ← vtop kpage
    write64 pte (pa ||| pteP ||| (if rw then pteW else 0) ||| pteU)
    return true
  | none => return false

/-- `pml4_clear_page`: mark the user page `upage` not present. The address of the map is then
compared with `cr3`, through the assertion of `vtop`. -/
def pml4ClearPage (pml4 upage : Nat) : KernelM Unit := do
  check (pgOfs upage = 0) .clearPageAligned
  check (isUserVaddr upage) .clearPageUserVaddr
  match ← pml4eWalk pml4 upage false with
  | some pte =>
    let entry ← read64 pte
    if entry &&& pteP ≠ 0 then
      write64 pte (entry &&& 0xfffffffffffffffe)
      let _ ← vtop pml4
      return ()
  | none => return ()

/-! ## Visiting every entry -/

/-- The loop of the `for_each` functions over the entries `i .. i + n - 1`: it stops when `visit`
returns false. -/
def visitEntries (visit : Nat → KernelM Bool) : Nat → Nat → KernelM Bool
  | 0, _ => return true
  | n + 1, i => do
    if ← visit i then visitEntries visit n (i + 1) else return false

/-- `pt_for_each`: call `func` on the present entries of a page table, with the address of the
entry and the virtual address that the indices make up. -/
def ptForEach (func : Nat → Nat → KernelM Bool) (pt pml4Idx pdpIdx pdxIdx : Nat) : KernelM Bool :=
  visitEntries (fun i => do
    let pte := pt + 8 * i
    if (← read64 pte) &&& pteP ≠ 0 then
      func pte (pml4Idx <<< 39 ||| pdpIdx <<< 30 ||| pdxIdx <<< 21 ||| i <<< 12)
    else
      return true) 512 0

/-- The common body of `pgdir_for_each`, `pdp_for_each` and `pml4_for_each`: go down through the
present entries. An entry is turned into a kernel virtual address before it is looked at. -/
def tableForEach (below : Nat → Nat → KernelM Bool) (table : Nat) : KernelM Bool :=
  visitEntries (fun i => do
    let entry := ptov (← read64 (table + 8 * i))
    if entry &&& pteP ≠ 0 then below (pteAddr entry) i else return true) 512 0

/-- `pgdir_for_each`. -/
def pgdirForEach (func : Nat → Nat → KernelM Bool) (pdp pml4Idx pdpIdx : Nat) : KernelM Bool :=
  tableForEach (fun pt i => ptForEach func pt pml4Idx pdpIdx i) pdp

/-- `pdp_for_each`. -/
def pdpForEach (func : Nat → Nat → KernelM Bool) (pdp pml4Idx : Nat) : KernelM Bool :=
  tableForEach (fun pdp i => pgdirForEach func pdp pml4Idx i) pdp

/-- `pml4_for_each`: call `func` on every present leaf entry. -/
def pml4ForEach (func : Nat → Nat → KernelM Bool) (pml4 : Nat) : KernelM Bool :=
  tableForEach (fun pdp i => pdpForEach func pdp i) pml4

/-! ## Teardown -/

/-- The common body of `pt_destroy`, `pgdir_destroy` and `pdpe_destroy`: destroy what the present
entries name, then free the table. -/
def tableDestroy (below : Nat → KernelM Unit) (table : Nat) : KernelM Unit := do
  (List.range 512).forM fun i => do
    let entry := ptov (← read64 (table + 8 * i))
    if entry &&& pteP ≠ 0 then below (pteAddr entry)
  pallocFreePage table

/-- `pt_destroy`: free the mapped frames and the page table. -/
def ptDestroy : Nat → KernelM Unit := tableDestroy pallocFreePage

/-- `pgdir_destroy`. -/
def pgdirDestroy : Nat → KernelM Unit := tableDestroy ptDestroy

/-- `pdpe_destroy`. -/
def pdpeDestroy : Nat → KernelM Unit := tableDestroy pgdirDestroy

/-- `pml4_destroy`: free what hangs below entry 0 and the top level. -/
def pml4Destroy (pml4 : Nat) : KernelM Unit := do
  if pml4 = 0 then return
  check (pml4 ≠ (← get).basePml4) .destroyBasePml4
  let pdpe := ptov (← read64 pml4)
  if pdpe &&& pteP ≠ 0 then pdpeDestroy (pteAddr pdpe)
  pallocFreePage pml4

/-! ## Accessed and dirty bits -/

/-- The common body of `pml4_is_dirty` and `pml4_is_accessed`. -/
def pml4TestBit (bit pml4 vpage : Nat) : KernelM Bool := do
  match ← pml4eWalk pml4 vpage false with
  | some pte => return decide ((← read64 pte) &&& bit ≠ 0)
  | none => return false

/-- The common body of `pml4_set_dirty` and `pml4_set_accessed`. The mask `~(uint32_t) bit` is a
32-bit number, which widens to 64 bits with zeros. -/
def pml4SetBit (bit pml4 vpage : Nat) (value : Bool) : KernelM Unit := do
  match ← pml4eWalk pml4 vpage false with
  | some pte =>
    let entry ← read64 pte
    write64 pte (if value then entry ||| bit else entry &&& (2 ^ 32 - 1 - bit))
    let _ ← vtop pml4
    return ()
  | none => return ()

/-- `pml4_is_dirty`. -/
def pml4IsDirty : Nat → Nat → KernelM Bool := pml4TestBit pteD

/-- `pml4_set_dirty`. -/
def pml4SetDirty : Nat → Nat → Bool → KernelM Unit := pml4SetBit pteD

/-- `pml4_is_accessed`. -/
def pml4IsAccessed : Nat → Nat → KernelM Bool := pml4TestBit pteA

/-- `pml4_set_accessed`. -/
def pml4SetAccessed : Nat → Nat → Bool → KernelM Unit := pml4SetBit pteA

/-! ## The base page map -/

/-- One iteration of the loop of `paging_init`: map the physical page `pa`, read-only when it
holds kernel text. A walk that fails for want of memory is skipped. -/
def mapKernelPage (textStart textEnd pml4 pa : Nat) : KernelM Unit := do
  let va := ptov pa
  let perm := if textStart ≤ va ∧ va < textEnd then pteP else pteP ||| pteW
  match ← pml4eWalk pml4 va true with
  | some pte => write64 pte (pa ||| perm)
  | none => return ()

/-- `paging_init`: map physical memory `[0, memEnd)` at `KERN_BASE` in a new page map and make it
the base page map. -/
def pagingInit (memEnd textStart textEnd : Nat) : KernelM Unit := do
  match ← pallocGetPage { assert := true, zero := true } with
  | some pml4 =>
    modify fun s => { s with basePml4 := pml4 }
    (List.range ((memEnd + pgSize - 1) / pgSize)).forM fun i =>
      mapKernelPage textStart textEnd pml4 (pgSize * i)
  | none => return ()

end Pintos.Threads.Mmu
