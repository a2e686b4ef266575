import Pintos.Threads.MallocCalls

/-!
# Runs of the heap

`malloc_init` establishes the invariant of the heap, and every call of `malloc`, `calloc`, `realloc`
and `free` keeps it (`reaches_heapInv`). Between calls the users of the heap write to their blocks,
other code obtains and returns pages, and the page allocator may or may not have pages left;
`Reaches` allows all of this. The block sizes in the statements are those that `block_size` returns.
-/

set_option autoImplicit false

namespace Pintos.Threads.MallocRuns

open Lib.StateExcept Lib.ByteMemory Finset
open LibKernel.List LibKernel.ListFamily LibKernel.ListMemory
open Vaddr Malloc MallocArenas
open MallocSteps MallocCalls

/-! ## `malloc_init` -/

/-- The state after `malloc_init` has set up the first `k` descriptors. -/
structure Started (descs k : Nat) (s : MallocState) (F : Family Nat) : Prop where
  wf : WellFormed (linksAt s.mem) F
  lists : ∀ i < k, F (freeList (descAt descs i)) = some []
  only : ∀ l xs, F l = some xs → xs = [] ∧ ∃ i < k, l = freeList (descAt descs i)
  fields : ∀ i < k, readLE s.mem 8 (descAt descs i) = blockSizeOf i ∧
    readLE s.mem 8 (descAt descs i + 8) = blocksPerArena i
  unlocked : ∀ i < k, s.locked (descAt descs i) = false
  cnt : s.descCnt = k
  log : s.log = []

/-- The memory after the first two fields of a descriptor have been set. -/
def fieldBytes (m : Bytes) (descs k : Nat) : Bytes :=
  writeLE (writeLE m 8 (descAt descs k) (blockSizeOf k)) 8 (descAt descs k + 8)
    ((pgSize - sizeofArena) / blockSizeOf k)

section Init

variable {descs k : Nat} {s : MallocState} {F : Family Nat}

/-- Where all lists are empty ones of descriptors, the nodes in use are their headers. -/
theorem node_of_only (h : ∀ l xs, F l = some xs → xs = [] ∧ ∃ i < k, l = freeList (descAt descs i))
    {x : Nat} (hx : ¬ Free F x) : ∃ j < k, x = descAt descs j + 16 ∨ x = descAt descs j + 32 := by
  simp only [Free, not_forall, not_not] at hx
  obtain ⟨l, xs, hl, hmem⟩ := hx
  obtain ⟨rfl, j, hj, rfl⟩ := h l xs hl
  rcases mem_nodes_freeList hmem with hx | hx | hx
  · exact ⟨j, hj, .inl hx⟩
  · exact ⟨j, hj, .inr hx⟩
  · exact absurd hx List.not_mem_nil

/-- Lists of descriptors lie apart from each other. -/
theorem spaced_of_only (hpos : 0 < descs) (htop : descs + 960 ≤ 2 ^ 64) (hk : k ≤ 7)
    (h : ∀ l xs, F l = some xs → xs = [] ∧ ∃ i < k, l = freeList (descAt descs i)) : Spaced F := by
  refine ⟨fun x hx => ?_, fun x y hx hy hne => ?_⟩
  · obtain ⟨j, hj, hx⟩ := node_of_only h hx
    rw [descAt_eq] at hx
    rw [sizeofListElem]
    omega
  · obtain ⟨j, hj, hx⟩ := node_of_only h hx
    obtain ⟨j', hj', hy⟩ := node_of_only h hy
    rw [descAt_eq] at hx hy
    rw [sizeofListElem]
    omega

/-- The fields of the first descriptors after those of the next one have been set. -/
theorem Started.readFields (hk : k < descTotal) (h : Started descs k s F) {i : Nat}
    (hi : i < k + 1) :
    readLE (fieldBytes s.mem descs k) 8 (descAt descs i) = blockSizeOf i ∧
      readLE (fieldBytes s.mem descs k) 8 (descAt descs i + 8) = blocksPerArena i := by
  have hsize : blockSizeOf k < 2 ^ 64 := (blockSizeOf_le hk).trans_lt (by norm_num)
  have hcnt : blocksPerArena k < 2 ^ 64 := by
    have : blocksPerArena k ≤ 4072 := Nat.div_le_self _ _
    omega
  rw [fieldBytes]
  by_cases hik : i = k
  · subst hik
    constructor
    · rw [readLE_writeLE_outside (by omega), readLE_writeLE]
      exact Nat.mod_eq_of_lt (lt_of_lt_of_eq hsize (by norm_num))
    · rw [readLE_writeLE]
      exact Nat.mod_eq_of_lt (lt_of_lt_of_eq hcnt (by norm_num))
  · have hi' : i < k := by omega
    rw [← (h.fields i hi').1, ← (h.fields i hi').2]
    simp only [descAt_eq]
    constructor
    · rw [readLE_writeLE_outside (by omega), readLE_writeLE_outside (by omega)]
    · rw [readLE_writeLE_outside (by omega), readLE_writeLE_outside (by omega)]

/-- One round of the loop of `malloc_init`. -/
theorem wp_initDesc (hpos : 0 < descs) (htop : descs + 960 ≤ 2 ^ 64) (hk : k < descTotal)
    (h : Started descs k s F) :
    wp (do
      modify fun s => { s with descCnt := s.descCnt + 1 }
      check ((← get).descCnt ≤ maxDescs) .descCnt
      write64 (descAt descs k) (blockSizeOf k)
      write64 (descAt descs k + 8) ((pgSize - sizeofArena) / blockSizeOf k)
      onMem (listInit (freeList (descAt descs k)))
      lockInit (descAt descs k)) s fun _ s' => ∃ F', Started descs (k + 1) s' F' := by
  have hk7 : k < 7 := hk
  simp only [wp_bind, wp_modify, wp_get, wp_check, wp_write64, wp_onMem, lockInit]
  refine ⟨by rw [h.cnt, maxDescs]; omega, ?_⟩
  -- the fields of the new descriptor do not touch the lists that are there
  have hwf : WellFormed (linksAt (fieldBytes s.mem descs k)) F := by
    refine h.wf.frame fun x hx => linksAt_congr fun y hy₁ hy₂ => ?_
    obtain ⟨j, hj, hx⟩ := node_of_only h.only hx
    rw [sizeofListElem] at hy₂
    rw [descAt_eq] at hx
    rw [fieldBytes, descAt_eq, writeLE, patch_outside (by omega), writeLE, patch_outside (by omega)]
  have hfree : ∀ x, x = descAt descs k + 16 ∨ x = descAt descs k + 32 → Free F x := by
    intro x hx
    by_contra hfree
    obtain ⟨j, hj, hx'⟩ := node_of_only h.only hfree
    simp only [descAt_eq] at hx hx'
    omega
  have honly : ∀ l xs, F.put (freeList (descAt descs k)) [] l = some xs →
      xs = [] ∧ ∃ i < k + 1, l = freeList (descAt descs i) := by
    intro l xs hl
    rcases of_put hl with ⟨rfl, rfl⟩ | ⟨-, hl⟩
    · exact ⟨rfl, k, Nat.lt_succ_self k, rfl⟩
    · obtain ⟨hxs, i, hi, hli⟩ := h.only l xs hl
      exact ⟨hxs, i, Nat.lt_succ_of_lt hi, hli⟩
  have hheads : (freeList (descAt descs k)).head ≠ (freeList (descAt descs k)).tail := by
    simp only [freeList]
    omega
  refine wp_mono (wp_listInit_stored hwf hheads (hfree _ (.inl rfl)) (hfree _ (.inr rfl))
    (spaced_of_only hpos htop hk7 honly)) ?_
  rintro - h' hst
  refine ⟨_, hst.wf, ?_, honly, ?_, ?_, ?_, h.log⟩
  · intro i hi
    by_cases hik : i = k
    · rw [hik, put_self]
    · rw [put_of_ne _ _ (freeList_ne hik), h.lists i (by omega)]
  · intro i hi
    -- the stores of the links overlap no field
    have hread : ∀ o, o + 8 ≤ 16 →
        readLE (storeLinks (fieldBytes s.mem descs k) h') 8 (descAt descs i + o) =
          readLE (fieldBytes s.mem descs k) 8 (descAt descs i + o) := by
      intro o ho
      refine readLE_congr fun j hj => hst.frame _ fun x hx => ?_
      rcases mem_nodes_freeList hx with hx | hx | hx
      · simp only [descAt_eq] at hx ⊢
        omega
      · simp only [descAt_eq] at hx ⊢
        omega
      · exact absurd hx List.not_mem_nil
    obtain ⟨h0, h8⟩ := h.readFields hk hi
    exact ⟨(hread 0 (by omega)).trans h0, (hread 8 (by omega)).trans h8⟩
  · intro i hi
    by_cases hik : i = k
    · rw [hik]
      exact Function.update_self ..
    · refine (Function.update_of_ne ?_ ..).trans (h.unlocked i (by omega))
      rw [descAt_eq, descAt_eq]
      omega
  · rw [h.cnt]

/-- The loop of `malloc_init`, from the descriptor `k` on. -/
theorem wp_mallocInitFrom (hpos : 0 < descs) (htop : descs + 960 ≤ 2 ^ 64) {fuel left : Nat}
    (hk : k + left = descTotal) (hfuel : left < fuel) (h : Started descs k s F) :
    wp (mallocInitFrom descs fuel (blockSizeOf k)) s fun _ s' =>
      ∃ F', Started descs descTotal s' F' := by
  induction left generalizing k fuel s F with
  | zero =>
    obtain ⟨fuel, rfl⟩ := Nat.exists_eq_succ_of_ne_zero (Nat.pos_iff_ne_zero.1 hfuel)
    subst hk
    rw [mallocInitFrom, if_pos (by decide), wp_pure]
    exact ⟨F, h⟩
  | succ left ih =>
    obtain ⟨fuel, rfl⟩ := Nat.exists_eq_succ_of_ne_zero (Nat.ne_zero_of_lt hfuel)
    have hk7 : k < descTotal := by omega
    have hmore : ¬ pgSize / 2 ≤ blockSizeOf k :=
      not_le.2 ((blockSizeOf_le hk7).trans_lt (by decide))
    have hdouble : blockSizeOf k * 2 = blockSizeOf (k + 1) := by
      rw [blockSizeOf, blockSizeOf, pow_succ, mul_assoc]
    rw [mallocInitFrom, if_neg hmore, hdouble]
    have hround := wp_initDesc hpos htop hk7 h
    have hloop := wp_mono hround fun _ s' hF => hF.elim fun F' h' =>
      ih (k := k + 1) (s := s') (F := F') (by omega) (Nat.lt_of_succ_lt_succ hfuel) h'
    rw [wp_bind, wp_get, h.cnt]
    simp only [wp_bind] at hloop ⊢
    exact hloop

theorem wp_mallocInit (hpos : 0 < descs) (htop : descs + 960 ≤ 2 ^ 64) (hcnt : s.descCnt = 0)
    (hlog : s.log = []) :
    wp (mallocInit descs) s fun _ s' => ∃ F, HeapInv descs s' ∅ ∅ (fun _ => []) F := by
  have hstart : Started descs 0 s fun _ => none :=
    ⟨⟨by simp, by simp⟩, by simp, by simp, by simp, by simp, hcnt, hlog⟩
  refine wp_mono (wp_mallocInitFrom hpos htop (zero_add _) (by decide) hstart) ?_
  rintro - s' ⟨F, h⟩
  refine ⟨F, ⟨⟨hpos, htop, by simp, by simp⟩, ⟨h.lists, fun l xs hl => (h.only l xs hl).2, by simp⟩,
    h.wf, h.fields, by simp⟩, h.cnt, h.unlocked, ⟨?_, ?_, by simp, by simp, by simp⟩, by simp⟩
  · intro a ha
    exact absurd ha (notMem_empty a)
  · rw [h.log]
    rfl

end Init

/-! ## `block_size`, `calloc` and `realloc` -/

/-- The size that `block_size` returns for a block. -/
def usable (s : MallocState) (b : Nat) : Nat :=
  match blockSize b s with
  | .ok (n, _) => n
  | .error _ => 0

section Sizes

variable {descs : Nat} {s : MallocState} {live : Finset Nat} {A : Finset Arena}
  {c : Nat → List Nat} {F : Family Nat} {a : Arena} {b p size : Nat}

theorem wp_blockSize (h : HeapInv descs s live A c F) (ha : a ∈ A) (hb : b ∈ a.blocks)
    (Q : Nat → MallocState → Prop) : wp (blockSize b) s Q ↔ Q a.blockSize s := by
  have hv := h.tables.layout.valid a ha
  have hh := h.tables.headers a ha
  rw [blockSize, wp_bind, wp_blockToArena h.tables ha hb, wp_bind, wp_read64, hh.desc]
  cases hd : a.desc with
  | some i =>
    have haddr : a.descAddr descs = descAt descs i := by rw [Arena.descAddr, hd]
    have hne := descAddr_ne_zero h.tables.layout hd
    rw [if_pos hne, wp_read64, haddr, (h.tables.fields i (hv.small i hd).1).1, Arena.blockSize, hd]
  | none =>
    have hzero : a.descAddr descs = 0 := by rw [Arena.descAddr, hd]
    have hcount : readLE s.mem 8 (a.page + 16) = a.pages := by
      rw [hh.free, Arena.freeCnt, hd]
    have hone := (mem_blocks_big hd).1 hb
    have hval : (pgSize * a.pages + 2 ^ 64 - pgOfs b) % 2 ^ 64 = a.blockSize := by
      have htop := hv.top
      have hstop := stop_eq a
      have hnon := hv.nonempty
      rw [pgOfs_block hv hb, hone, Arena.blockSize, hd]
      simp only [pgSize, sizeofArena]
      omega
    rw [hzero, if_neg (by simp), wp_bind, wp_read64, wp_pure, hcount, hval]

theorem usable_eq (h : HeapInv descs s live A c F) (ha : a ∈ A) (hb : b ∈ a.blocks) :
    usable s b = a.blockSize := by
  obtain ⟨n, s', hrun, rfl, rfl⟩ :=
    (wp_blockSize h ha hb fun n s' => n = a.blockSize ∧ s' = s).2 ⟨rfl, rfl⟩
  rw [usable, hrun]

/-- The result of the page allocator is fresh whenever it is not null. -/
def PagesOk (descs : Nat) (s : MallocState) : Prop :=
  ∀ cnt p, 1 ≤ cnt → s.pages cnt = some p → FreshPages descs s cnt p

/-- The heap is in order after a write inside a block in use. -/
theorem heapInv_patchBlock (h : HeapInv descs s live A c F) (ha : a ∈ A) (hb : b ∈ a.blocks)
    (hlive : b ∈ live) {x k : Nat} {f : Nat → UInt8} (hx : b ≤ x) (hk : x + k ≤ b + a.blockSize) :
    HeapInv descs { s with mem := patch s.mem x k f } live A c F :=
  ⟨tables_patchBlock h.tables ha hb (h.books.not_listed h.tables hlive) hx hk, h.cnt, h.unlocked,
    h.books.state rfl rfl, h.inUse⟩

/-- The computation of the number of pages does not wrap around, or there are no such pages. -/
def Fits (s : MallocState) (size : Nat) : Prop :=
  size + 4119 < 2 ^ 64 ∨ s.pages (pageCntOf size) = none

theorem Fits.grants (h : Fits s size) : Grants s size size := by
  rcases h with h | h
  · exact grants_of_lt s h
  · exact ⟨le_rfl, fun hne => absurd h hne⟩

/-- A request that wraps around, but not to zero pages, is answered with one page. -/
theorem grants_onePage (h : pageCntOf size ≠ 0) : Grants s size (min size 4072) := by
  refine ⟨min_le_left _ _, fun _ => ?_⟩
  simp only [sizeofArena, pgSize]
  omega

/-- `calloc` returns a block of zeros for the product as it is computed. -/
theorem wp_calloc (h : HeapInv descs s live A c F) {x y n : Nat} (hn : x * y % 2 ^ 64 = n)
    (hsize : n < x ∨ n < y ∨ Fits s n) (hpages : PagesOk descs s) :
    wp (calloc descs x y) s fun r s' => Malloced descs s live A n r s' ∧
      ∀ b, r = some b → ∀ k < n, s'.mem (b + k) = 0 := by
  rw [calloc, hn]
  by_cases hsmall : n < x ∨ n < y
  · rw [if_pos hsmall, wp_pure]
    exact ⟨malloced_none h rfl h.unlocked, by simp⟩
  have hfits : Fits s n := (or_assoc.2 hsize).resolve_left hsmall
  rw [if_neg hsmall]
  rw [wp_bind]
  refine wp_mono (wp_malloc h hfits.grants hpages) ?_
  rintro r s' ⟨A', c', F', hinv, hsur, hlog, hroom⟩
  cases r with
  | none =>
    rw [wp_pure]
    exact ⟨⟨A', c', F', hinv, hsur, hlog, hroom⟩, by simp⟩
  | some q =>
    obtain ⟨hnew, a, ha, hq, hle⟩ := hroom q rfl
    rw [wp_bind, wp_memset, wp_pure]
    have hqlive : q ∈ withBlock live (some q) := mem_insert_self q live
    have hzero := heapInv_patchBlock (f := fun _ => 0) hinv ha hq hqlive (x := q) (k := n) le_rfl
      (by omega)
    have hothers := survive_patchBlock (insert q live) (f := fun _ => 0) (k := n)
      hinv.tables.layout ha hq le_rfl (by omega) s'.mem
    rw [erase_insert hnew] at hothers
    refine ⟨⟨A', c', F', hzero, survive_trans hsur hothers, hlog, hroom⟩, ?_⟩
    rintro b ⟨⟩ k hk
    change fill s'.mem q n 0 (q + k) = 0
    rw [fill, patch_inside (by omega) (by omega)]

/-- The blocks in use after `realloc (p, n)` has returned `r`. -/
def reallocated (live : Finset Nat) (p n : Nat) (r : Option Nat) : Finset Nat :=
  if n = 0 then live.erase p
  else
    match r with
    | none => live
    | some q => (insert q live).erase p

theorem null_not_live (h : HeapInv descs s live A c F) : 0 ∉ live := by
  intro h0
  obtain ⟨a, ha, hb⟩ := h.books.inArena 0 h0
  have := block_range (h.tables.layout.valid a ha) hb
  omega

/-- `free` of a null pointer does nothing, and `free` of a block in use frees it. -/
theorem wp_free_heapInv (h : HeapInv descs s live A c F) (hp : p = 0 ∨ p ∈ live) :
    wp (free p) s fun _ s' => ∃ A' c' F', HeapInv descs s' (live.erase p) A' c' F' ∧
      Survive A A' (live.erase p) s.mem s'.mem := by
  rcases hp with rfl | hp
  · rw [free, if_pos rfl, wp_pure, erase_eq_of_notMem (null_not_live h)]
    exact ⟨A, c, F, h, survive_refl A live s.mem⟩
  · obtain ⟨a, ha, hb⟩ := h.books.inArena p hp
    refine wp_mono (wp_free h ha hb hp) ?_
    rintro - s' ⟨A', c', F', hinv, hsur, -⟩
    exact ⟨A', c', F', hinv, hsur⟩

/-- What `realloc (p, n)` does for `n > 0`: without a new block the blocks in use are as before; a
new block has room for `room` bytes and starts with the contents of the old one. -/
structure Resized (s : MallocState) (live : Finset Nat) (A A' : Finset Arena) (p n room : Nat)
    (r : Option Nat) (s' : MallocState) : Prop where
  failed : r = none → Survive A A' live s.mem s'.mem
  room : ∀ q, r = some q → ∃ a ∈ A', q ∈ a.blocks ∧ room ≤ a.blockSize
  same : ∀ q, r = some q → p ∈ live → ∀ k < n, k < usable s p → s'.mem (q + k) = s.mem (p + k)

/-- The part of `realloc` after the new block has been obtained. -/
theorem wp_moveBlock (h : HeapInv descs s live A c F) (ha : a ∈ A) (hpa : p ∈ a.blocks)
    (hp : p ∈ live) {n q room : Nat} (hcopy : min n (usable s p) ≤ room) {s₁ : MallocState}
    (hm : Malloced descs s live A room (some q) s₁) :
    wp (do
      let oldSize ← blockSize p
      memcpy q p (if n < oldSize then n else oldSize)
      free p) s₁ fun _ s' => ∃ A' c' F', HeapInv descs s' ((insert q live).erase p) A' c' F' ∧
        Resized s live A A' p n room (some q) s' := by
  obtain ⟨A₁, c₁, F₁, hinv, hsur, -, hroom⟩ := hm
  obtain ⟨hnew, a', ha', hq, hle⟩ := hroom q rfl
  obtain ⟨ha₁, hold⟩ := hsur a ha p hpa hp
  have hqlive : q ∈ insert q live := mem_insert_self q live
  have hqp : q ≠ p := by
    rintro rfl
    exact hnew hp
  rw [wp_bind, wp_blockSize hinv ha₁ hpa, wp_bind, wp_memcpy]
  have hk : (if n < a.blockSize then n else a.blockSize) ≤ a'.blockSize := by
    rw [usable_eq h ha hpa] at hcopy
    split <;> omega
  have hcopied := heapInv_patchBlock (f := fun i => s₁.mem (p + i)) hinv ha' hq hqlive (x := q)
    (k := if n < a.blockSize then n else a.blockSize) le_rfl (by omega)
  refine wp_mono (wp_free_heapInv hcopied (.inr (mem_insert_of_mem hp))) ?_
  rintro - s' ⟨A₂, c₂, F₂, hinv₂, hsur₂⟩
  obtain ⟨ha₂, hkeep⟩ := hsur₂ a' ha' q hq (mem_erase.2 ⟨hqp, hqlive⟩)
  refine ⟨A₂, c₂, F₂, hinv₂, by simp, ?_, ?_⟩
  · rintro _ ⟨⟩
    exact ⟨a', ha₂, hq, hle⟩
  · rintro _ ⟨⟩ - k hkn hku
    rw [usable_eq h ha hpa] at hku
    have hmin : k < if n < a.blockSize then n else a.blockSize := by
      by_cases hlt : n < a.blockSize
      · rwa [if_pos hlt]
      · rwa [if_neg hlt]
    rw [hkeep (q + k) (by omega) (by omega)]
    change patch s₁.mem q _ (fun i => s₁.mem (p + i)) (q + k) = _
    rw [patch_inside (by omega) (by omega), Nat.add_sub_cancel_left,
      hold (p + k) (by omega) (by omega)]

theorem wp_realloc (h : HeapInv descs s live A c F) {n room : Nat} (hp : p = 0 ∨ p ∈ live)
    (hroom : Grants s n room) (hcopy : min n (usable s p) ≤ room) (hpages : PagesOk descs s) :
    wp (realloc descs p n) s fun r s' => ∃ A' c' F',
      HeapInv descs s' (reallocated live p n r) A' c' F' ∧
      (0 < n → Resized s live A A' p n room r s') := by
  rw [realloc]
  by_cases hn : n = 0
  · rw [if_pos hn]
    rw [wp_bind]
    refine wp_mono (wp_free_heapInv h hp) ?_
    rintro - s' ⟨A', c', F', hinv, -⟩
    rw [wp_pure, reallocated, if_pos hn]
    exact ⟨A', c', F', hinv, by omega⟩
  rw [if_neg hn]
  rw [wp_bind]
  refine wp_mono (wp_malloc h hroom hpages) ?_
  rintro r s₁ hm
  have hafter : ∀ r, reallocated live p n r = match r with
      | none => live
      | some q => (insert q live).erase p := fun r => if_neg hn
  cases r with
  | none =>
    obtain ⟨A₁, c₁, F₁, hinv, hsur, -, -⟩ := hm
    rw [wp_pure, hafter]
    exact ⟨A₁, c₁, F₁, hinv, fun _ => ⟨fun _ => hsur, by simp, by simp⟩⟩
  | some q =>
    dsimp only
    rcases hp with rfl | hp
    · obtain ⟨A₁, c₁, F₁, hinv, hsur, -, hroom⟩ := hm
      have hinv₀ : HeapInv descs s₁ ((insert q live).erase 0) A₁ c₁ F₁ := by
        change HeapInv descs s₁ ((withBlock live (some q)).erase 0) A₁ c₁ F₁
        rw [erase_eq_of_notMem (null_not_live hinv)]
        exact hinv
      change wp (pure (some q)) s₁ _
      rw [wp_pure, hafter]
      refine ⟨A₁, c₁, F₁, hinv₀, fun _ => ⟨by simp, ?_, ?_⟩⟩
      · rintro _ ⟨⟩
        exact (hroom q rfl).2
      · exact fun _ _ h0 => absurd h0 (null_not_live h)
    · obtain ⟨a, ha, hpa⟩ := h.books.inArena p hp
      have hp0 : p ≠ 0 := by
        rintro rfl
        exact null_not_live h hp
      rw [if_pos hp0]
      have hmove := wp_mono (wp_moveBlock h ha hpa hp hcopy hm) (R := fun _ t => ∃ A' c' F',
        HeapInv descs t ((insert q live).erase p) A' c' F' ∧
        (0 < n → Resized s live A A' p n room (some q) t))
        fun _ _ ⟨A', c', F', hinv, hres⟩ => ⟨A', c', F', hinv, fun _ => hres⟩
      simp only [wp_bind, wp_pure, hafter] at hmove ⊢
      exact hmove

end Sizes

/-! ## Sequences of calls -/

/-- A call of the heap; zero is the null pointer. -/
inductive Call where
  | malloc (size : Nat)
  | calloc (a b : Nat)
  | realloc (p n : Nat)
  | free (p : Nat)

/-- The call as code; `free` has no result. -/
def Call.exec (descs : Nat) : Call → MallocM (Option Nat)
  | .malloc size => Malloc.malloc descs size
  | .calloc a b => Malloc.calloc descs a b
  | .realloc p n => Malloc.realloc descs p n
  | .free p => do
    Malloc.free p
    return none

/-- The blocks in use after a call that returned `r`. -/
def Call.after (live : Finset Nat) (r : Option Nat) : Call → Finset Nat
  | .malloc _ => withBlock live r
  | .calloc _ _ => withBlock live r
  | .realloc p n => reallocated live p n r
  | .free p => live.erase p

/-- A call that may be made: blocks are in use when they are given back, the page allocator keeps to
its contract, and nothing is written outside the new block. When the computation of the number of
pages wraps around, to zero or one, there are no such pages; or it is one page, and no more is
written to it than it has room for. -/
def Call.Allowed (descs : Nat) (s : MallocState) (live : Finset Nat) : Call → Prop
  | .malloc size => (Fits s size ∨ pageCntOf size ≠ 0) ∧ PagesOk descs s
  | .calloc a b =>
    (a * b % 2 ^ 64 < a ∨ a * b % 2 ^ 64 < b ∨ Fits s (a * b % 2 ^ 64)) ∧ PagesOk descs s
  | .realloc p n => (p = 0 ∨ p ∈ live) ∧
    (Fits s n ∨ pageCntOf n ≠ 0 ∧ usable s p ≤ 4072) ∧ PagesOk descs s
  | .free p => p = 0 ∨ p ∈ live

/-- The bytes that are for `malloc.c` alone: the descriptors, and what it holds of pages and has not
given out in a block. -/
def Private (descs : Nat) (s : MallocState) (live : Finset Nat) (x : Nat) : Prop :=
  (descs ≤ x ∧ x < descs + sizeofDesc * maxDescs) ∨
    ((∃ r ∈ heldOf s.log, r.1 ≤ x ∧ x < r.1 + pgSize * r.2) ∧
      ∀ b ∈ live, ¬ (b ≤ x ∧ x < b + usable s b))

/-- The heaps that sequences of calls lead to, with the blocks in use: after `malloc_init`; after a
call; after other code has written to memory that is not the heap's own and has obtained and
returned other pages. -/
inductive Reaches (descs : Nat) : MallocState → Finset Nat → Prop where
  | init {s₀ s : MallocState} : 0 < descs → descs + sizeofDesc * maxDescs ≤ 2 ^ 64 →
      s₀.descCnt = 0 → s₀.log = [] → mallocInit descs s₀ = .ok ((), s) → Reaches descs s ∅
  | call {s s' : MallocState} {live : Finset Nat} {r : Option Nat} (c : Call) :
      Reaches descs s live → c.Allowed descs s live → c.exec descs s = .ok (r, s') →
      Reaches descs s' (c.after live r)
  | other {s : MallocState} {live : Finset Nat} (mem : Bytes) (pages : Nat → Option Nat)
      (used : Nat → Bool) : Reaches descs s live →
      (∀ x, Private descs s live x → mem x = s.mem x) →
      (∀ r ∈ heldOf s.log, ∀ k < r.2, used (r.1 / pgSize + k) = true) →
      Reaches descs { s with mem := mem, pages := pages, used := used } live

section Runs

variable {descs : Nat} {s : MallocState} {live : Finset Nat} {A : Finset Arena}
  {c : Nat → List Nat} {F : Family Nat}

/-- Descriptors, headers and free lists are private. -/
theorem private_of_meta (h : HeapInv descs s live A c F) {x : Nat} (hx : Meta descs A c x) :
    Private descs s live x := by
  have hl := h.tables.layout
  have hheld : ∀ a ∈ A, a.page ≤ x → x < a.stop →
      ∃ r ∈ heldOf s.log, r.1 ≤ x ∧ x < r.1 + pgSize * r.2 := by
    intro a ha hx₁ hx₂
    refine ⟨(a.page, a.pages), ?_, hx₁, hx₂⟩
    rw [h.books.held]
    exact mem_image_of_mem _ ha
  rcases hx with hx | ⟨a, ha, hx⟩ | ⟨j, hj, y, hy, hx⟩
  · exact .inl hx
  · have hnon := (hl.valid a ha).nonempty
    have hstop := stop_eq a
    refine .inr ⟨hheld a ha (by omega) (by omega), fun b hb hbx => ?_⟩
    obtain ⟨a', ha', hba⟩ := h.books.inArena b hb
    rw [usable_eq h ha' hba] at hbx
    have := hl.block_header ha' ha hba
    omega
  · obtain ⟨a, ha, -, hya⟩ := h.tables.shape.blocks j hj y hy
    have hr := block_range (hl.valid a ha) hya
    have hs := blockSize_ge (hl.valid a ha)
    refine .inr ⟨hheld a ha (by omega) (by omega), fun b hb hbx => ?_⟩
    obtain ⟨a', ha', hba⟩ := h.books.inArena b hb
    have hne : b ≠ y := by
      rintro rfl
      exact h.books.not_listed h.tables hb j hj hy
    rw [usable_eq h ha' hba] at hbx
    have := hl.blocks_apart ha' ha hba hya hne
    omega

theorem wp_call (h : HeapInv descs s live A c F) {call : Call} (hc : call.Allowed descs s live) :
    wp (call.exec descs) s fun r s' =>
      ∃ A' c' F', HeapInv descs s' (call.after live r) A' c' F' := by
  cases call with
  | malloc size =>
    obtain ⟨room, hroom⟩ : ∃ room, Grants s size room :=
      hc.1.elim (fun hfits => ⟨_, hfits.grants⟩) fun hne => ⟨_, grants_onePage hne⟩
    refine wp_mono (wp_malloc h hroom hc.2) ?_
    rintro r s' ⟨A', c', F', hinv, -⟩
    exact ⟨A', c', F', hinv⟩
  | calloc a b =>
    refine wp_mono (wp_calloc h rfl hc.1 hc.2) ?_
    rintro r s' ⟨⟨A', c', F', hinv, -⟩, -⟩
    exact ⟨A', c', F', hinv⟩
  | realloc p n =>
    obtain ⟨room, hroom, hcopy⟩ : ∃ room, Grants s n room ∧ min n (usable s p) ≤ room := by
      rcases hc.2.1 with hfits | ⟨hne, hle⟩
      · exact ⟨n, hfits.grants, min_le_left _ _⟩
      · exact ⟨_, grants_onePage hne, min_le_min_left n hle⟩
    refine wp_mono (wp_realloc h hc.1 hroom hcopy hc.2.2) ?_
    rintro r s' ⟨A', c', F', hinv, -⟩
    exact ⟨A', c', F', hinv⟩
  | free p =>
    rw [Call.exec, wp_bind]
    refine wp_mono (wp_free_heapInv h hc) ?_
    rintro - s' ⟨A', c', F', hinv, -⟩
    rw [wp_pure]
    exact ⟨A', c', F', hinv⟩

theorem reaches_heapInv (h : Reaches descs s live) : ∃ A c F, HeapInv descs s live A c F := by
  induction h with
  | init hpos htop hcnt hlog hrun =>
    obtain ⟨F, hinv⟩ := wlp_of_wp (wp_mallocInit hpos htop hcnt hlog) _ _ hrun
    exact ⟨∅, _, F, hinv⟩
  | call c _ hallowed hrun ih =>
    obtain ⟨A, b, F, hinv⟩ := ih
    exact wlp_of_wp (wp_call hinv hallowed) _ _ hrun
  | other mem pages used _ hmem hused ih =>
    obtain ⟨A, b, F, hinv⟩ := ih
    refine ⟨A, b, F, hinv.tables.congr fun x hx => hmem x (private_of_meta hinv hx), hinv.cnt,
      hinv.unlocked, ⟨?_, hinv.books.held, hinv.books.inArena, hinv.books.free, hinv.books.big⟩,
      hinv.inUse⟩
    intro a ha k hk
    refine hused (a.page, a.pages) ?_ k hk
    rw [hinv.books.held]
    exact mem_image_of_mem _ ha

/-! ## The invariant in terms of memory -/

/-- The arenas `A` and the contents `c` of the free lists, as the memory has them, fit the blocks in
use. -/
structure Consistent (descs : Nat) (s : MallocState) (live : Finset Nat) (A : Finset Arena)
    (c : Nat → List Nat) : Prop where
  descCnt : s.descCnt = descTotal
  /-- A block in use lies in the pages of its arena. -/
  inArena : ∀ b ∈ live, ∃ a ∈ A, b ∈ a.blocks ∧ a.page ≤ b ∧ b + usable s b ≤ a.stop
  blocksApart : ∀ b ∈ live, ∀ b' ∈ live, b ≠ b' → b + usable s b ≤ b' ∨ b' + usable s b' ≤ b
  headersApart : ∀ b ∈ live, ∀ a ∈ A, b + usable s b ≤ a.page ∨ a.page + sizeofArena ≤ b
  list : ∀ i < descTotal, IsList (linksAt s.mem) (freeList (descAt descs i)) (c i)
  once : ∀ i < descTotal, (c i).Nodup
  free : ∀ i < descTotal, ∀ x,
    x ∈ c i ↔ ∃ a ∈ A, a.desc = some i ∧ x ∈ a.blocks ∧ x ∉ live
  freeCnt : ∀ i < descTotal, ∀ a ∈ A, a.desc = some i →
    readLE s.mem 8 (a.page + 16) = (a.blocks.filter (· ∈ c i)).card ∧
    readLE s.mem 8 (a.page + 16) < readLE s.mem 8 (descAt descs i + 8)
  held : heldOf s.log = A.image fun a => (a.page, a.pages)

theorem consistent_of_heapInv (h : HeapInv descs s live A c F) : Consistent descs s live A c := by
  have hl := h.tables.layout
  refine ⟨h.cnt, ?_, ?_, ?_, fun i hi => h.tables.wf.isList _ _ (h.tables.shape.lists i hi),
    fun i hi => nodup_list h.tables hi, ?_, ?_, h.books.held⟩
  · intro b hb
    obtain ⟨a, ha, hba⟩ := h.books.inArena b hb
    have hr := block_range (hl.valid a ha) hba
    rw [usable_eq h ha hba]
    exact ⟨a, ha, hba, by omega, hr.2.1⟩
  · intro b hb b' hb' hne
    obtain ⟨a, ha, hba⟩ := h.books.inArena b hb
    obtain ⟨a', ha', hba'⟩ := h.books.inArena b' hb'
    rw [usable_eq h ha hba, usable_eq h ha' hba']
    exact hl.blocks_apart ha ha' hba hba' hne
  · intro b hb a ha
    obtain ⟨a', ha', hba⟩ := h.books.inArena b hb
    rw [usable_eq h ha' hba]
    exact hl.block_header ha' ha hba
  · intro i hi x
    constructor
    · intro hx
      obtain ⟨a, ha, hd, hxa⟩ := h.tables.shape.blocks i hi x hx
      exact ⟨a, ha, hd, hxa, (h.books.free i a ha hd x hxa).1 hx⟩
    · rintro ⟨a, ha, hd, hxa, hlive⟩
      exact (h.books.free i a ha hd x hxa).2 hlive
  · intro i hi a ha hd
    have hv := hl.valid a ha
    have hcount : a.freeCnt live = (a.blocks.filter (· ∈ c i)).card := by
      simp only [Arena.freeCnt, hd]
      congr 1
      ext x
      rw [mem_sdiff, mem_filter]
      exact and_congr_right fun hx => (h.books.free i a ha hd x hx).symm
    rw [(h.tables.headers a ha).free, (h.tables.fields i hi).2]
    refine ⟨hcount, lt_of_le_of_ne (freeCnt_le live hv hd) fun heq => ?_⟩
    obtain ⟨b, hb, hbl⟩ := h.inUse a ha
    exact (freeCnt_eq_iff hv hd).1 heq b hb hbl

/-- In every heap that calls lead to, the arenas, the free lists and the blocks in use fit together.
A request of at most `2 ^ 63` bytes and the return of a block in use do not fail an assertion. The
request is answered with a block that was not in use, if with any. Pages are returned by a call of
`free` only, namely all pages of the arena whose last block it frees. -/
theorem heap_consistent (h : Reaches descs s live) :
    ∃ A c, Consistent descs s live A c ∧
      (∀ size ≤ 2 ^ 63, PagesOk descs s → ∃ r s', malloc descs size s = .ok (r, s') ∧
        (∀ b, r = some b → b ∉ live) ∧ Reaches descs s' (withBlock live r) ∧
        (s'.log = s.log ∨ ∃ p cnt, s'.log = s.log ++ [.got p cnt])) ∧
      ∀ a ∈ A, ∀ p ∈ a.blocks, p ∈ live → ∃ s', free p s = .ok ((), s') ∧
        s'.log = if ∀ b ∈ a.blocks, b ∉ live.erase p then s.log ++ [.freed a.page a.pages]
          else s.log := by
  obtain ⟨A, c, F, hinv⟩ := reaches_heapInv h
  refine ⟨A, c, consistent_of_heapInv hinv, ?_, ?_⟩
  · intro size hsize hpages
    have hfits : Fits s size := Or.inl (by omega)
    obtain ⟨r, s', hrun, _, _, _, -, -, hlog, hroom⟩ := wp_malloc hinv hfits.grants hpages
    exact ⟨r, s', hrun, fun b hb => (hroom b hb).1,
      .call (.malloc size) h ⟨.inl hfits, hpages⟩ hrun, hlog⟩
  · intro a ha p hp hlive
    obtain ⟨⟨⟩, s', hrun, -, -, -, -, -, hlog⟩ := wp_free hinv ha hp hlive
    exact ⟨s', hrun, hlog⟩

/-- A request for more than the blocks of a descriptor have. -/
theorem wp_malloc_large {size : Nat} (h : HeapInv descs s live A c F) (hsize : 1024 < size)
    (Q : Option Nat → MallocState → Prop) :
    wp (malloc descs size) s Q ↔ wp (bigBlock (pageCntOf size)) s Q := by
  have hnone : ((List.range s.descCnt).find? fun i =>
      decide (size ≤ readLE s.mem 8 (descAt descs i))) = none := by
    rw [List.find?_eq_none, h.cnt]
    intro i hi hle
    have hi := List.mem_range.1 hi
    have hle := of_decide_eq_true hle
    rw [(h.tables.fields i hi).1] at hle
    exact absurd (hle.trans (blockSizeOf_le hi)) (not_le.2 hsize)
  rw [malloc, if_neg (by omega), wp_bind, wp_get, hnone]
  rfl

/-- A large block in one page, when there is one. -/
theorem wp_malloc_onePage {p : Nat} (size : Nat) (h : HeapInv descs s live A c F)
    (hsize : 1024 < size)
    (hcnt : pageCntOf size = 1) (hpages : PagesOk descs s) (hp : s.pages 1 = some p) :
    wp (malloc descs size) s fun r s' => r = some (p + 24) ∧ usable s' (p + 24) = 4072 ∧
      s'.log = s.log ++ [.got p 1] := by
  rw [wp_malloc_large h hsize, hcnt, bigBlock, wp_bind, wp_pallocGetMultiple, hp]
  refine wp_mono (wp_writeBig h le_rfl (hpages 1 p le_rfl hp)) ?_
  rintro r s' ⟨rfl, -, hlog, hblock, hinv', -⟩
  exact ⟨rfl, usable_eq hinv' (mem_insert_self _ A) hblock, hlog⟩

theorem pagesOk_one {p : Nat} (hs : s.pages = fun cnt => if cnt ≤ 1 then some p else none)
    (hf : FreshPages descs s 1 p) : PagesOk descs s := by
  intro cnt q hpos hq
  rw [hs] at hq
  by_cases hcnt : cnt ≤ 1
  · obtain rfl : cnt = 1 := Nat.le_antisymm hcnt hpos
    obtain rfl : p = q := Option.some.inj hq
    exact hf
  · simp only [if_neg hcnt] at hq
    cases hq

/-- An empty heap, with a page allocator that has one page left, which is the first of its pool. -/
theorem exists_onePage : ∃ s, Reaches 0x8004200000 s ∅ ∧ PagesOk 0x8004200000 s ∧
    (∀ cnt ≤ 1, s.pages cnt = some 0x8004300000) ∧ heldOf s.log = ∅ := by
  have hpos : 0 < 0x8004200000 := by norm_num
  have htop : 0x8004200000 + 960 ≤ 2 ^ 64 := by norm_num
  obtain ⟨⟨⟩, s, hrun, F, hinv⟩ := wp_mallocInit
    (s := ⟨fun _ => 0, 0, fun _ => false, fun _ => none, fun _ => false, []⟩) hpos htop rfl rfl
  have hheld : heldOf s.log = ∅ := by rw [hinv.books.held, image_empty]
  refine ⟨{ s with
    pages := fun cnt => if cnt ≤ 1 then some 0x8004300000 else none
    used := fun _ => false }, .other _ _ _ (.init hpos htop rfl rfl hrun) (fun _ _ => rfl) ?_,
    pagesOk_one rfl ⟨by norm_num, by norm_num, by norm_num, by norm_num, fun _ _ => rfl⟩,
    fun cnt hcnt => if_pos hcnt, hheld⟩
  intro r hr
  rw [hheld] at hr
  exact absurd hr (notMem_empty r)

/-- The heap after a request for 2000 bytes, when there is another page. -/
theorem exists_inUse : ∃ s, Reaches 0x8004200000 s {0x8004300018} ∧ PagesOk 0x8004200000 s ∧
    (∀ cnt ≤ 1, s.pages cnt = some 0x8004301000) := by
  obtain ⟨s, hreach, hpages, hone, hempty⟩ := exists_onePage
  obtain ⟨A, c, F, hinv⟩ := reaches_heapInv hreach
  obtain ⟨r, s', hrun, rfl, -, hlog⟩ := wp_malloc_onePage 2000 hinv (by norm_num) (by rfl)
    hpages (hone 1 le_rfl)
  have hcall := Reaches.call (.malloc 2000) hreach ⟨.inl (.inl (by norm_num)), hpages⟩ hrun
  have hheld : heldOf s'.log = {(0x8004300000, 1)} := by
    rw [hlog, heldOf_concat, hempty]
    rfl
  refine ⟨{ s' with
    pages := fun cnt => if cnt ≤ 1 then some 0x8004301000 else none
    used := fun n => n = 0x8004300 }, .other _ _ _ hcall (fun _ _ => rfl) ?_,
    pagesOk_one rfl ⟨by norm_num, by norm_num, by norm_num, by norm_num, fun k hk => ?_⟩,
    fun cnt hcnt => if_pos hcnt⟩
  · intro r hr k hk
    rw [hheld, mem_singleton] at hr
    obtain rfl := hr
    obtain rfl : k = 0 := Nat.lt_one_iff.1 hk
    rfl
  · obtain rfl : k = 0 := Nat.lt_one_iff.1 hk
    rfl

/-- With a block in use, another is obtained, and the first given back with its page. -/
theorem heap_consistent_inUse : ∃ s, Reaches 0x8004200000 s {0x8004300018} ∧
    (∃ r s', malloc 0x8004200000 100 s = .ok (r, s') ∧ r ≠ some 0x8004300018) ∧
    ∃ s', free 0x8004300018 s = .ok ((), s') := by
  obtain ⟨s, hreach, hpages, -⟩ := exists_inUse
  obtain ⟨A, c, hcons, hmalloc, hfree⟩ := heap_consistent hreach
  have hlive : 0x8004300018 ∈ ({0x8004300018} : Finset Nat) := mem_singleton_self _
  obtain ⟨r, s', hrun, hnew, -⟩ := hmalloc 100 (by norm_num) hpages
  obtain ⟨a, ha, hblock, -⟩ := hcons.inArena _ hlive
  obtain ⟨t, hfreed, -⟩ := hfree a ha _ hblock hlive
  exact ⟨s, hreach, ⟨r, s', hrun, fun hr => hnew _ hr hlive⟩, t, hfreed⟩

/-! ## Sizes -/

/-- The block has room for `size` bytes, by `block_size` and in pages that are held. -/
def HasRoom (s : MallocState) (b size : Nat) : Prop :=
  size ≤ usable s b ∧ ∃ r ∈ heldOf s.log, r.1 ≤ b ∧ b + usable s b ≤ r.1 + pgSize * r.2

/-- `malloc (size)` is a null pointer or has enough room. -/
def MallocSized (descs : Nat) (s : MallocState) (size : Nat) : Prop :=
  wp (malloc descs size) s fun r s' => ∀ b, r = some b → HasRoom s' b size

/-- `calloc (x, y)` is a null pointer or has enough room, which is zero. -/
def CallocSized (descs : Nat) (s : MallocState) (x y : Nat) : Prop :=
  wp (calloc descs x y) s fun r s' =>
    ∀ b, r = some b → HasRoom s' b (x * y) ∧ ∀ k < x * y, s'.mem (b + k) = 0

/-- `realloc (p, n)` is a null pointer and leaves `p` as it is, or has enough room, which starts
with the bytes of `p`, and `p` is freed. -/
def ReallocSized (descs : Nat) (s : MallocState) (live : Finset Nat) (p n : Nat) : Prop :=
  wp (realloc descs p n) s fun r s' =>
    (r = none → Reaches descs s' live ∧ usable s' p = usable s p ∧
      ∀ k < usable s p, s'.mem (p + k) = s.mem (p + k)) ∧
    ∀ q, r = some q → Reaches descs s' ((insert q live).erase p) ∧ HasRoom s' q n ∧
      ∀ k < min n (usable s p), s'.mem (q + k) = s.mem (p + k)

section Sizes

variable {p size : Nat}

theorem hasRoom_of_mem {a : Arena} {b : Nat} (h : HeapInv descs s live A c F) (ha : a ∈ A)
    (hb : b ∈ a.blocks) (hsize : size ≤ a.blockSize) : HasRoom s b size := by
  have hr := block_range (h.tables.layout.valid a ha) hb
  rw [HasRoom, usable_eq h ha hb, h.books.held]
  exact ⟨hsize, _, mem_image_of_mem _ ha, le_trans (Nat.le_add_right _ _) hr.1, hr.2.1⟩

/-- The pages that are held lie below the top of memory. -/
theorem held_top (h : HeapInv descs s live A c F) :
    ∀ r ∈ heldOf s.log, r.1 + pgSize * r.2 ≤ 2 ^ 64 := by
  intro r hr
  rw [h.books.held] at hr
  obtain ⟨a, ha, rfl⟩ := mem_image.1 hr
  exact (h.tables.layout.valid a ha).top

/-- There is no room for what wraps around: the first page of memory is not used. -/
theorem HasRoom.lt {b : Nat} (h : HasRoom s b size) (hb : 4120 ≤ b)
    (htop : ∀ r ∈ heldOf s.log, r.1 + pgSize * r.2 ≤ 2 ^ 64) : size + 4119 < 2 ^ 64 := by
  obtain ⟨hsize, r, hr, -, hend⟩ := h
  have := htop r hr
  omega

section Failing

variable (h : HeapInv descs s live A c F) (hpages : PagesOk descs s)
  (hbase : ∀ p, s.pages 0 = some p → pgSize ≤ p ∧ p < 2 ^ 64) (hsize : 1024 < size)
include h hsize

theorem wp_malloc_none (hp : s.pages (pageCntOf size) = none) :
    wp (malloc descs size) s fun r _ => r = none := by
  rw [wp_malloc_large h hsize, bigBlock, wp_bind, wp_pallocGetMultiple, hp]
  exact (wp_pure ..).2 rfl

include hpages hbase

/-- A large block is obtained whenever there are pages, many or few. -/
theorem wp_malloc_some (hp : s.pages (pageCntOf size) = some p) :
    wp (malloc descs size) s fun r s' => r = some (p + sizeofArena) ∧ 4120 ≤ p + sizeofArena ∧
      ∀ r ∈ heldOf s'.log, r.1 + pgSize * r.2 ≤ 2 ^ 64 := by
  have hrange : pgSize ≤ p ∧ p + pgSize * pageCntOf size ≤ 2 ^ 64 := by
    simp only [pgSize] at hbase ⊢
    rcases Nat.eq_zero_or_pos (pageCntOf size) with h0 | hpos
    · rw [h0] at hp ⊢
      have := hbase p hp
      omega
    · obtain ⟨haligned, hne, htop, -, -⟩ := hpages _ p hpos hp
      omega
  rw [wp_malloc_large h hsize, bigBlock, wp_bind, wp_pallocGetMultiple, hp]
  change wp (writeArena _ _ _ >>= fun _ => pure _) _ _
  rw [wp_bind, wp_writeArena, wp_pure]
  refine ⟨rfl, Nat.add_le_add_right hrange.1 24, fun r hr => ?_⟩
  change r ∈ heldOf (s.log ++ [.got p (pageCntOf size)]) at hr
  rw [heldOf_concat] at hr
  rcases mem_insert.1 hr with rfl | hr
  · exact hrange.2
  · exact held_top h r hr

end Failing

/-- A product that wraps around and is not rejected is large. -/
theorem large_of_product {x y n : Nat} (hn : x * y % 2 ^ 64 = n) (hwrap : 2 ^ 64 ≤ x * y + 4119)
    (hx : x ≤ n) (hy : y ≤ n) : 1024 < n := by
  by_contra hle
  have hmul : x * y ≤ 1024 * 1024 := Nat.mul_le_mul (by omega) (by omega)
  omega

/-- The block that `malloc` returns has room for what is granted. -/
theorem hasRoom_of_malloced {r : Option Nat} {s' : MallocState}
    (h : Malloced descs s live A size r s') : ∀ b, r = some b → HasRoom s' b size := by
  obtain ⟨A', c', F', hinv', -, -, hroom⟩ := h
  intro b hb
  obtain ⟨-, a, ha, hba, hle⟩ := hroom b hb
  exact hasRoom_of_mem hinv' ha hba hle

/-- `realloc` returns what `malloc` has returned, if it returns. -/
theorem wlp_realloc {n q : Nat} (hn : 0 < n)
    (hmalloc : wp (malloc descs n) s fun r _ => r = some q) :
    wlp (realloc descs p n) s fun r _ => r = some q := by
  obtain ⟨r, s₁, hmalloc, rfl⟩ := hmalloc
  rw [realloc, if_neg hn.ne', wlp_bind]
  intro r₁ t₁ hr₁
  rw [hmalloc] at hr₁
  cases hr₁
  dsimp only
  split
  · simp only [wlp_bind, wlp_pure]
    exact fun _ _ _ _ _ _ _ _ _ => trivial
  · rw [wlp_pure]

section Exact

variable (hpages : PagesOk descs s)
  (hbase : ∀ p, s.pages 0 = some p → pgSize ≤ p ∧ p < 2 ^ 64)
include hpages hbase

theorem mallocSized_iff (h : HeapInv descs s live A c F) :
    MallocSized descs s size ↔ Fits s size := by
  constructor
  · intro hok
    by_contra hnot
    rw [Fits, not_or, not_lt] at hnot
    obtain ⟨p, hp⟩ := Option.ne_none_iff_exists'.1 hnot.2
    obtain ⟨r, s', -, ⟨rfl, hb, htop⟩, hroom⟩ :=
      wp_and (wp_malloc_some h hpages hbase (by omega) hp) hok
    exact not_le.2 ((hroom _ rfl).lt hb htop) hnot.1
  · intro hfits
    exact wp_mono (wp_malloc h hfits.grants hpages) fun _ _ => hasRoom_of_malloced

theorem callocSized_iff {x y n : Nat} (h : HeapInv descs s live A c F) (hn : x * y % 2 ^ 64 = n) :
    CallocSized descs s x y ↔
      x * y + 4119 < 2 ^ 64 ∨ n < x ∨ n < y ∨ s.pages (pageCntOf n) = none := by
  by_cases hlt : x * y + 4119 < 2 ^ 64
  · obtain rfl : x * y = n := by omega
    refine iff_of_true ?_ (.inl hlt)
    refine wp_mono (wp_calloc h hn (.inr (.inr (.inl hlt))) hpages) ?_
    rintro r s' ⟨hm, hzero⟩ b hb
    exact ⟨hasRoom_of_malloced hm b hb, hzero b hb⟩
  rw [or_iff_right hlt, ← or_assoc, CallocSized, calloc, hn]
  by_cases hsmall : n < x ∨ n < y
  · rw [if_pos hsmall, wp_pure]
    exact iff_of_true (by simp) (.inl hsmall)
  rw [or_iff_right hsmall, if_neg hsmall, wp_bind]
  have hlarge : 1024 < n := large_of_product hn (by omega) (by omega) (by omega)
  cases hp : s.pages (pageCntOf n) with
  | none =>
    refine iff_of_true (wp_mono (wp_malloc_none h hlarge hp) ?_) rfl
    rintro r s' rfl
    rw [wp_pure]
    simp
  | some p =>
    refine iff_of_false (fun hok => ?_) (Option.some_ne_none p)
    obtain ⟨r, s', -, ⟨rfl, hb, htop⟩, hok⟩ :=
      wp_and (wp_malloc_some h hpages hbase hlarge hp) hok
    dsimp only at hok
    rw [wp_bind, wp_memset, wp_pure] at hok
    exact hlt ((hok _ rfl).1.lt hb htop)

theorem reallocSized_iff {n : Nat} (h : Reaches descs s live) (hp : p ∈ live) (hn : 0 < n) :
    ReallocSized descs s live p n ↔ Fits s n := by
  obtain ⟨A, c, F, hinv⟩ := reaches_heapInv h
  constructor
  · rintro ⟨r, s', hrun, -, hroom⟩
    by_contra hnot
    rw [Fits, not_or, not_lt] at hnot
    obtain ⟨p', hp'⟩ := Option.ne_none_iff_exists'.1 hnot.2
    have hmalloc := wp_malloc_some hinv hpages hbase (by omega) hp'
    have hresult := wlp_realloc (p := p) hn (wp_mono hmalloc fun _ _ hr => hr.1)
    obtain ⟨-, -, -, -, hb, -⟩ := hmalloc
    obtain ⟨hreach, hq, -⟩ := hroom _ (hresult r s' hrun)
    obtain ⟨A', c', F', hinv'⟩ := reaches_heapInv hreach
    exact not_le.2 (hq.lt hb (held_top hinv')) hnot.1
  · intro hfits
    obtain ⟨r, s', hrun, A', c', F', hinv', hres⟩ :=
      wp_realloc hinv (.inr hp) hfits.grants (min_le_left _ _) hpages
    have hres := hres hn
    have hreach := Reaches.call (.realloc p n) h ⟨.inr hp, .inl hfits, hpages⟩ hrun
    simp only [Call.after, reallocated, if_neg hn.ne'] at hreach
    obtain ⟨a, ha, hpa⟩ := hinv.books.inArena p hp
    refine ⟨r, s', hrun, ?_, ?_⟩
    · rintro rfl
      obtain ⟨ha', hsame⟩ := hres.failed rfl a ha p hpa hp
      rw [usable_eq hinv ha hpa, usable_eq hinv' ha' hpa]
      exact ⟨hreach, rfl, fun k hk => hsame (p + k) (by omega) (by omega)⟩
    · rintro q rfl
      obtain ⟨a', ha', hqa, hle⟩ := hres.room q rfl
      exact ⟨hreach, hasRoom_of_mem hinv' ha' hqa hle, fun k hk =>
        hres.same q rfl hp k (lt_of_lt_of_le hk (min_le_left _ _))
          (lt_of_lt_of_le hk (min_le_right _ _))⟩

end Exact

/-- In every heap that calls lead to, a request is answered with a null pointer or with enough room
exactly when the number of pages can be computed without wrapping around, or `calloc` notices that
the product has wrapped around, or the page allocator does not have the pages that are asked for
after wrapping around. A request for no pages is answered with the first page of the pool. -/
theorem heap_sizes (h : Reaches descs s live) (hpages : PagesOk descs s)
    (hbase : ∀ p, s.pages 0 = some p → pgSize ≤ p ∧ p < 2 ^ 64) :
    (∀ size, MallocSized descs s size ↔
      size + 4119 < 2 ^ 64 ∨ s.pages (pageCntOf size) = none) ∧
    (∀ x y, CallocSized descs s x y ↔
      x * y + 4119 < 2 ^ 64 ∨ x * y % 2 ^ 64 < x ∨ x * y % 2 ^ 64 < y ∨
        s.pages (pageCntOf (x * y % 2 ^ 64)) = none) ∧
    ∀ p ∈ live, ∀ n, 0 < n → (ReallocSized descs s live p n ↔
      n + 4119 < 2 ^ 64 ∨ s.pages (pageCntOf n) = none) := by
  obtain ⟨A, c, F, hinv⟩ := reaches_heapInv h
  exact ⟨fun size => mallocSized_iff hpages hbase hinv,
    fun x y => callocSized_iff hpages hbase hinv rfl,
    fun p hp n hn => reallocSized_iff hpages hbase h hp hn⟩

/-- Ten times ten bytes, and a product that wraps around and is noticed. -/
theorem heap_sizes_inUse : ∃ s, Reaches 0x8004200000 s {0x8004300018} ∧
    CallocSized 0x8004200000 s 10 10 ∧ CallocSized 0x8004200000 s (2 ^ 63) 2 ∧
    ¬ MallocSized 0x8004200000 s (2 ^ 64 - 1) := by
  obtain ⟨s, hreach, hpages, hone⟩ := exists_inUse
  have hbase : ∀ p, s.pages 0 = some p → pgSize ≤ p ∧ p < 2 ^ 64 := by
    intro p hp
    rw [hone 0 (by norm_num)] at hp
    obtain rfl := Option.some.inj hp
    exact ⟨by decide, by norm_num⟩
  obtain ⟨hmalloc, hcalloc, -⟩ := heap_sizes hreach hpages hbase
  refine ⟨s, hreach, (hcalloc 10 10).2 (by norm_num), (hcalloc _ 2).2 (by norm_num), ?_⟩
  have hcnt : pageCntOf (2 ^ 64 - 1) = 1 := by rfl
  rw [hmalloc, hcnt, hone 1 le_rfl]
  simp

end Sizes

/-- **Nothing is kept.** In every heap that calls lead to, returning the blocks in use, in any
order, fails no assertion, returns all pages to the page allocator and leaves all free lists
empty. -/
theorem free_all (h : Reaches descs s live) (blocks : List Nat) (hnodup : blocks.Nodup)
    (hall : blocks.toFinset = live) :
    wp (blocks.forM free) s fun _ s' => Reaches descs s' ∅ ∧ heldOf s'.log = ∅ ∧
      ∀ i < descTotal, IsList (linksAt s'.mem) (freeList (descAt descs i)) [] := by
  obtain ⟨A, c, F, hinv⟩ := reaches_heapInv h
  induction blocks generalizing s live A c F with
  | nil =>
    obtain rfl : ∅ = live := hall
    -- every arena has a block in use
    obtain rfl : A = ∅ := by
      apply eq_empty_of_forall_notMem
      intro a ha
      obtain ⟨b, -, hb⟩ := hinv.inUse a ha
      exact absurd hb (notMem_empty b)
    have hc := consistent_of_heapInv hinv
    refine ⟨(), s, rfl, h, hc.held, ?_⟩
    intro i hi
    have hempty : c i = [] := by
      apply List.eq_nil_iff_forall_not_mem.2
      intro x hx
      obtain ⟨a, ha, -⟩ := (hc.free i hi x).1 hx
      exact absurd ha (notMem_empty a)
    exact hempty ▸ hc.list i hi
  | cons b blocks ih =>
    obtain ⟨hb, hrest⟩ := List.nodup_cons.1 hnodup
    have hlive : b ∈ live := by
      rw [← hall, List.toFinset_cons]
      exact mem_insert_self ..
    obtain ⟨⟨⟩, t, hrun, A', c', F', hinv', -⟩ := wp_free_heapInv hinv (.inr hlive)
    have hcall : (Call.free b).exec descs s = .ok (none, t) := by
      rw [Call.exec, bind_eq_of_ok hrun]
      rfl
    have hreach := Reaches.call (.free b) h (.inr hlive) hcall
    have hleft : blocks.toFinset = live.erase b := by
      rw [← hall, List.toFinset_cons, erase_insert (List.mem_toFinset.not.2 hb)]
    show wp (free b >>= fun _ => blocks.forM free) s _
    rw [wp_bind]
    exact ⟨(), t, hrun, ih hreach hrest hleft A' c' F' hinv'⟩

theorem free_all_inUse : ∃ s, Reaches 0x8004200000 s {0x8004300018} ∧
    wp ([0x8004300018].forM free) s fun _ t => heldOf t.log = ∅ := by
  obtain ⟨s, hreach, -⟩ := exists_inUse
  refine ⟨s, hreach, wp_mono (free_all hreach [_] (List.nodup_singleton _) rfl) ?_⟩
  exact fun _ _ hend => hend.2.1

/-- A request of `SIZE_MAX` bytes: the size of the header is added, the sum wraps around to 23, and
one page is enough for that. The block that is returned has 4072 bytes. -/
theorem malloc_sizeMax :
    ∃ s, Reaches 0x8004200000 s ∅ ∧ PagesOk 0x8004200000 s ∧
      ∃ b s', malloc 0x8004200000 (2 ^ 64 - 1) s = .ok (some b, s') ∧ usable s' b = 4072 := by
  obtain ⟨s, hreach, hpages, hone, -⟩ := exists_onePage
  obtain ⟨A, c, F, hinv⟩ := reaches_heapInv hreach
  obtain ⟨r, s', hrun, rfl, hsize, -⟩ := wp_malloc_onePage (2 ^ 64 - 1) hinv (by norm_num)
    (by rfl) hpages (hone 1 le_rfl)
  exact ⟨s, hreach, hpages, _, s', hrun, hsize⟩

end Runs

end Pintos.Threads.MallocRuns
