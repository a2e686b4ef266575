import Pintos.Threads.MallocArenas

/-!
# The steps of `malloc` and `free`

What the helper functions of `malloc.c` do to the tables in memory: finding the arena of a block
and the blocks of an arena, taking a block from a free list, making an arena and dissolving one.
The loops of the last two go through the blocks of one arena, which are added to the end of the
free list, or removed from wherever in it they are.
-/

set_option autoImplicit false

namespace Pintos.Threads.MallocSteps

open Function Lib.StateExcept Lib.ByteMemory List
open LibKernel.List LibKernel.ListFamily LibKernel.ListLaws
open LibKernel.ListMemory
open Vaddr Malloc MallocArenas

variable {descs : Nat} {s : MallocState} {A : Finset Arena} {c : Nat → List Nat} {F : Family Nat}
  {n : Arena → Nat} {a : Arena} {i b e : Nat} {k : Nat} {m : Bytes}

/-! ## Blocks and arenas -/

theorem descAddr_ne_zero (hl : Layout descs A) {i : Nat} (hd : a.desc = some i) :
    a.descAddr descs ≠ 0 := by
  have := hl.pos
  simp only [Arena.descAddr, hd, descAt_eq]
  omega

theorem wp_blockToArena (ht : Tables descs s.mem A c F n) (ha : a ∈ A) (hb : b ∈ a.blocks)
    (Q : Nat → MallocState → Prop) : wp (blockToArena b) s Q ↔ Q a.page s := by
  have hv := ht.layout.valid a ha
  have hh := ht.headers a ha
  have hpos := hv.pos
  have hround := pgRoundDown_block hv hb
  have hofs := pgOfs_block hv hb
  have hr := block_range hv hb
  obtain ⟨k, hk, hbk⟩ := Finset.mem_image.1 hb
  have hk := Finset.mem_range.1 hk
  simp only [blockToArena, wp_bind, wp_check, wp_get, wp_read64, wp_pure, hround, hh.magic, hh.desc]
  refine ⟨fun h => h.2.2.2.2, fun hQ => ⟨by omega, trivial, ?_, ?_, hQ⟩⟩
  · cases hd : a.desc with
    | none => exact .inl (by rw [Arena.descAddr, hd])
    | some i =>
      obtain ⟨hi, -⟩ := hv.small i hd
      refine .inr ?_
      have hsize : readLE s.mem 8 (a.descAddr descs) = a.blockSize := by
        simp only [Arena.descAddr, Arena.blockSize, hd]
        exact (ht.fields i hi).1
      have hdiff : (pgOfs b + 2 ^ 64 - sizeofArena) % 2 ^ 64 = k * a.blockSize := by
        simp only [Arena.block, sizeofArena] at hbk ⊢
        omega
      rw [hsize, hdiff, Nat.mul_mod_left]
  · cases hd : a.desc with
    | some i => exact .inl (descAddr_ne_zero ht.layout hd)
    | none =>
      have hcnt : a.blockCnt = 1 := by rw [Arena.blockCnt, hd]
      have hk0 : k = 0 := by omega
      rw [hofs, ← hbk, hk0]
      simp [Arena.block]

theorem wp_arenaToBlock (ht : Tables descs s.mem A c F n) (ha : a ∈ A) (hd : a.desc = some i)
    (hk : k < blocksPerArena i) (Q : Nat → MallocState → Prop) :
    wp (arenaToBlock a.page k) s Q ↔ Q (a.block k) s := by
  have hv := ht.layout.valid a ha
  have hh := ht.headers a ha
  have hpos := hv.pos
  obtain ⟨hi, -⟩ := hv.small i hd
  have hmem : a.block k ∈ a.blocks := by
    refine Finset.mem_image_of_mem _ (Finset.mem_range.2 ?_)
    rw [Arena.blockCnt, hd]
    exact hk
  have hlt := lt_of_mem_blocks hv hmem
  have haddr : a.descAddr descs = descAt descs i := by rw [Arena.descAddr, hd]
  have hblock : (a.page + sizeofArena + k * blockSizeOf i) % 2 ^ 64 = a.block k := by
    have hsize : a.blockSize = blockSizeOf i := by rw [Arena.blockSize, hd]
    rw [Arena.block, hsize] at hlt ⊢
    exact Nat.mod_eq_of_lt hlt
  simp only [arenaToBlock, wp_bind, wp_check, wp_get, wp_read64, wp_pure, hh.magic, hh.desc, haddr,
    (ht.fields i hi).1, (ht.fields i hi).2, hblock]
  exact ⟨fun h => h.2.2.2, fun hQ => ⟨by omega, trivial, hk, hQ⟩⟩

/-! ## Free lists -/

/-- A block that is not on the free list of its descriptor is on no list. -/
theorem free_block (ht : Tables descs s.mem A c F n) (ha : a ∈ A) (hd : a.desc = some i)
    (he : e ∈ a.blocks) (hnot : e ∉ c i) : Free F e := by
  by_contra hfree
  rcases ht.shape.node hfree with ⟨j, hj, hx⟩ | ⟨j, hj, hx⟩
  · have := ht.layout.block_descs ha he
    rw [descAt_eq] at hx
    rw [descTotal] at hj
    omega
  · obtain ⟨a', ha', hd', he'⟩ := ht.shape.blocks j hj e hx
    rw [ht.layout.desc_unique ha ha' he he' hd hd'] at hx
    exact hnot hx

/-- The state with other memory, in which the free list of a descriptor has other contents. -/
def Relisted (descs : Nat) (s : MallocState) (A : Finset Arena) (c : Nat → List Nat)
    (n : Arena → Nat) (s' : MallocState) : Prop :=
  ∃ m' F', s' = { s with mem := m' } ∧ Tables descs m' A c F' n ∧ Kept A c s.mem m'

section Lists

section

variable (ht : Tables descs s.mem A c F n) (hi : i < descTotal)
include ht hi

theorem wp_pushBack (ha : a ∈ A) (hd : a.desc = some i) (he : e ∈ a.blocks) (hnot : e ∉ c i) :
    wp (onMem (listPushBack (freeList (descAt descs i)) (some e))) s fun _ s' =>
      Relisted descs s A (update c i (c i ++ [e])) n s' := by
  have hsub := forall_mem_append.2 ⟨ht.shape.blocks i hi, forall_mem_singleton.2 ⟨a, ha, hd, he⟩⟩
  rw [wp_onMem]
  refine wp_mono (wp_listPushBack_stored ht.wf (ht.shape.lists i hi)
    (free_block ht ha hd he hnot) ((ht.shape.put hi hsub).spaced ht.layout)) ?_
  exact fun _ h' hst => ⟨_, _, rfl, ht.stored hi hsub hst⟩

theorem wp_pushFront (ha : a ∈ A) (hd : a.desc = some i) (he : e ∈ a.blocks) (hnot : e ∉ c i) :
    wp (onMem (listPushFront (freeList (descAt descs i)) (some e))) s fun _ s' =>
      Relisted descs s A (update c i (e :: c i)) n s' := by
  have hsub := forall_mem_cons.2 ⟨⟨a, ha, hd, he⟩, ht.shape.blocks i hi⟩
  rw [wp_onMem]
  refine wp_mono (wp_listPushFront_stored ht.wf (ht.shape.lists i hi)
    (free_block ht ha hd he hnot) ((ht.shape.put hi hsub).spaced ht.layout)) ?_
  exact fun _ h' hst => ⟨_, _, rfl, ht.stored hi hsub hst⟩

theorem wp_listEmpty_onMem (Q : Bool → MallocState → Prop) :
    wp (onMem (listEmpty (freeList (descAt descs i)))) s Q ↔ Q (c i).isEmpty s := by
  rw [wp_onMem, wp_listEmpty ht.wf (ht.shape.lists i hi), storeLinks_linksAt]

theorem nodup_list : (c i).Nodup := by
  have hnd := (ht.wf.isList _ _ (ht.shape.lists i hi)).nodup
  exact (nodup_append.1 (nodup_cons.1 hnd).2).1

end

/-- A list without one of its elements. -/
theorem erase_middle {us vs : List Nat} (hnd : (us ++ e :: vs).Nodup) :
    us ++ vs = (us ++ e :: vs).erase e := by
  have hnot : e ∉ us := fun hmem =>
    (nodup_append.1 hnd).2.2 e hmem e mem_cons_self rfl
  rw [erase_append_right _ hnot, erase_cons_head]

theorem wp_remove (ht : Tables descs s.mem A c F n) (hi : i < descTotal) (he : e ∈ c i) :
    wp (onMem (listRemove (some e))) s fun _ s' =>
      Relisted descs s A (update c i ((c i).erase e)) n s' := by
  obtain ⟨us, vs, hsplit⟩ := append_of_mem he
  have hnd := nodup_list ht hi
  have hl := ht.shape.lists i hi
  have hall := ht.shape.blocks i hi
  rw [hsplit] at hl hnd hall
  have hsub : ∀ x ∈ us ++ vs, ∃ a ∈ A, a.desc = some i ∧ x ∈ a.blocks := fun x hx =>
    hall x ((sublist_cons_self e vs).append_left us |>.subset hx)
  rw [hsplit, ← erase_middle hnd, wp_onMem]
  refine wp_mono (wp_listRemove_stored ht.wf hl ((ht.shape.put hi hsub).spaced ht.layout)) ?_
  exact fun _ h' hst => ⟨_, _, rfl, ht.stored hi hsub hst⟩

theorem wp_popFront (ht : Tables descs s.mem A c F n) (hi : i < descTotal) {rest : List Nat}
    (hc : c i = e :: rest) :
    wp (onMem (do deref (← listPopFront (freeList (descAt descs i))))) s fun r s' => r = e ∧
      Relisted descs s A (update c i rest) n s' := by
  have hl := ht.shape.lists i hi
  have hall := ht.shape.blocks i hi
  rw [hc] at hl hall
  have hsub := (forall_mem_cons.1 hall).2
  rw [wp_onMem, wp_bind]
  refine wp_mono (wp_listPopFront_stored ht.wf hl ((ht.shape.put hi hsub).spaced ht.layout)) ?_
  rintro r h' ⟨rfl, hst⟩
  rw [wp_deref]
  exact ⟨rfl, _, _, rfl, ht.stored hi hsub hst⟩

end Lists

/-! ## Taking a block -/

theorem kept_trans {m₁ m₂ m₃ : Bytes} (h : Kept A c m₁ m₂) (h' : Kept A c m₂ m₃) :
    Kept A c m₁ m₃ :=
  fun a ha b hb hout x hx₁ hx₂ => (h' a ha b hb hout x hx₁ hx₂).trans (h a ha b hb hout x hx₁ hx₂)

theorem kept_setFreeCnt (hl : Layout descs A) (ha : a ∈ A) (m : Bytes) (v : Nat) :
    Kept A c m (writeLE m 8 (a.page + 16) v) := by
  intro a' ha' b hb _ x hx₁ hx₂
  have := hl.block_header ha' ha hb
  exact patch_outside (by omega)

theorem count_lt (ht : Tables descs s.mem A c F n) (ha : a ∈ A) : n a < 2 ^ 64 := by
  have hlt := readLE_lt s.mem 8 (a.page + 16)
  rw [(ht.headers a ha).free] at hlt
  exact lt_of_lt_of_eq hlt (by norm_num)

theorem wp_takeBlock (ht : Tables descs s.mem A c F n) (hi : i < descTotal) {rest : List Nat}
    (hc : c i = e :: rest) (ha : a ∈ A) (he : e ∈ a.blocks) (hn : 1 ≤ n a) :
    wp (takeBlock (descAt descs i)) s fun r s' => r = e ∧
      Relisted descs s A (update c i rest) (update n a (n a - 1)) s' := by
  rw [takeBlock, wp_bind]
  refine wp_mono (wp_popFront ht hi hc) ?_
  rintro r s' ⟨rfl, m', F', rfl, ht', hkept⟩
  have hlt := count_lt ht ha
  have hcnt := (ht'.headers a ha).free
  rw [wp_bind, wp_blockToArena ht' ha he, wp_bind, wp_read64, wp_bind, wp_write64, wp_pure]
  refine ⟨rfl, _, F', rfl, ?_, kept_trans hkept (kept_setFreeCnt ht.layout ha _ _)⟩
  have hset := ht'.setFreeCnt ha (readLE m' 8 (a.page + 16) + 2 ^ 64 - 1)
  have hval : (readLE m' 8 (a.page + 16) + 2 ^ 64 - 1) % 2 ^ 64 = n a - 1 := by
    omega
  rw [hval] at hset
  exact hset

/-! ## Making an arena -/

/-- The memory after the header of an arena has been set. -/
def headerBytes (m : Bytes) (page d freeCnt : Nat) : Bytes :=
  writeLE (writeLE (writeLE m 4 page arenaMagic) 8 (page + 8) d) 8 (page + 16) freeCnt

theorem wp_writeArena (page d k : Nat) (Q : Unit → MallocState → Prop) :
    wp (writeArena page d k) s Q ↔ Q () { s with mem := headerBytes s.mem page d k } := by
  rw [writeArena, wp_bind, wp_modify, wp_bind, wp_write64, wp_write64]
  rfl

theorem headerBytes_outside {page d x : Nat} (hx : x < page ∨ page + 24 ≤ x) :
    headerBytes m page d k x = m x := by
  rw [headerBytes, writeLE, patch_outside (by omega), writeLE, patch_outside (by omega), writeLE,
    patch_outside (by omega)]

theorem header_headerBytes (hd : a.descAddr descs < 2 ^ 64) (hk : k < 2 ^ 64) :
    Header descs (headerBytes m a.page (a.descAddr descs) k) a k where
  magic := by
    rw [headerBytes, readLE_writeLE_outside (by omega), readLE_writeLE_outside (by omega),
      readLE_writeLE]
    norm_num [arenaMagic]
  desc := by
    rw [headerBytes, readLE_writeLE_outside (by omega), readLE_writeLE]
    exact Nat.mod_eq_of_lt (lt_of_lt_of_eq hd (by norm_num))
  free := by
    rw [headerBytes, readLE_writeLE]
    exact Nat.mod_eq_of_lt (lt_of_lt_of_eq hk (by norm_num))

theorem descAddr_lt (hl : Layout descs A) (hv : Valid descs a) : a.descAddr descs < 2 ^ 64 := by
  have htop := hl.top
  unfold Arena.descAddr
  cases hd : a.desc with
  | none => norm_num
  | some i =>
    have hi : i < 7 := (hv.small i hd).1
    simp only [descAt_eq]
    omega

/-- What is asked of pages that the page allocator returns. -/
structure FreshPages (descs : Nat) (s : MallocState) (cnt p : Nat) : Prop where
  aligned : p % 4096 = 0
  pos : 0 < p
  top : p + 4096 * cnt ≤ 2 ^ 64
  outside : p + 4096 * cnt ≤ descs ∨ descs + 960 ≤ p
  unused : ∀ k < cnt, s.used (p / 4096 + k) = false

/-- All pages of the arenas are allocated. -/
def AllUsed (s : MallocState) (A : Finset Arena) : Prop :=
  ∀ a ∈ A, ∀ k < a.pages, s.used (a.page / 4096 + k) = true

/-- Fresh pages are apart from the arenas, whose pages are in use. -/
theorem FreshPages.apart {cnt p : Nat} (hf : FreshPages descs s cnt p) (hcnt : 1 ≤ cnt)
    (hused : AllUsed s A) (hv : Valid descs a) (ha : a ∈ A) :
    p + 4096 * cnt ≤ a.page ∨ a.stop ≤ p := by
  by_contra hnot
  have hp := hf.aligned
  have hpa := hv.aligned
  have hstop := stop_eq a
  -- the page with the larger number would be used and unused
  by_cases hle : p ≤ a.page
  · have hu := hused a ha 0 hv.nonempty
    have hf := hf.unused (a.page / 4096 - p / 4096) (by omega)
    have hk : p / 4096 + (a.page / 4096 - p / 4096) = a.page / 4096 + 0 := by omega
    rw [hk, hu] at hf
    cases hf
  · have hf := hf.unused 0 hcnt
    have hu := hused a ha (p / 4096 - a.page / 4096) (by omega)
    have hk : a.page / 4096 + (p / 4096 - a.page / 4096) = p / 4096 + 0 := by omega
    rw [hk, hf] at hu
    cases hu

/-- The layout with an arena in fresh pages. -/
theorem FreshPages.layout {cnt p : Nat} (hf : FreshPages descs s cnt p) (hcnt : 1 ≤ cnt)
    (hl : Layout descs A) (hused : AllUsed s A) {d : Option Nat}
    (hd : ∀ i, d = some i → i < descTotal ∧ cnt = 1) :
    Layout descs (insert ⟨p, cnt, d⟩ A) ∧ (⟨p, cnt, d⟩ : Arena) ∉ A := by
  have hv : Valid descs ⟨p, cnt, d⟩ := ⟨hf.aligned, hf.pos, hcnt, hf.top, hd, hf.outside⟩
  have hapart : ∀ a ∈ A, (⟨p, cnt, d⟩ : Arena).stop ≤ a.page ∨ a.stop ≤ p :=
    fun a ha => hf.apart hcnt hused (hl.valid a ha) ha
  refine ⟨⟨hl.pos, hl.top, ?_, ?_⟩, ?_⟩
  · intro a ha
    rcases Finset.mem_insert.1 ha with rfl | ha
    · exact hv
    · exact hl.valid a ha
  · intro a ha b hb hne
    rcases Finset.mem_insert.1 ha with rfl | ha
    · rcases Finset.mem_insert.1 hb with rfl | hb
      · exact absurd rfl hne
      · exact hapart b hb
    · rcases Finset.mem_insert.1 hb with rfl | hb
      · exact (hapart a ha).symm
      · exact hl.apart a ha b hb hne
  · intro ha
    have hstop := stop_eq ⟨p, cnt, d⟩
    have := hapart _ ha
    simp only at hstop this
    omega

/-- A new arena whose blocks are not on a list yet. -/
theorem tables_addArena (ht : Tables descs m A c F n) (hl : Layout descs (insert a A)) (ha : a ∉ A)
    (hk : k < 2 ^ 64) :
    Tables descs (headerBytes m a.page (a.descAddr descs) k) (insert a A) c F
      (update n a k) := by
  have haI := Finset.mem_insert_self a A
  have hsub := Finset.subset_insert a A
  have hold : Tables descs (headerBytes m a.page (a.descAddr descs) k) A c F n := by
    refine ht.congr fun x hx => headerBytes_outside ?_
    rcases hx with hx | ⟨a', ha', hx⟩ | ⟨j, hj, y, hy, hx⟩
    · have := hl.header_descs haI
      omega
    · have hne : a ≠ a' := by
        rintro rfl
        exact ha ha'
      have := hl.headers_apart haI (hsub ha') hne
      omega
    · obtain ⟨a', ha', -, hya⟩ := ht.shape.blocks j hj y hy
      have := hl.block_header (hsub ha') haI hya
      have := blockSize_ge (ht.layout.valid a' ha')
      omega
  refine ⟨hl, ⟨ht.shape.lists, ht.shape.only, ?_⟩, hold.wf, hold.fields, ?_⟩
  · intro j hj x hx
    obtain ⟨a', ha', h⟩ := ht.shape.blocks j hj x hx
    exact ⟨a', hsub ha', h⟩
  · intro a' ha'
    by_cases haa : a' = a
    · rw [haa, update_self]
      exact header_headerBytes (descAddr_lt hl (hl.valid a haI)) hk
    · rw [update_of_ne haa]
      exact hold.headers a' ((Finset.mem_insert.1 ha').resolve_left haa)

theorem kept_headerBytes (hl : Layout descs (insert a A)) (m : Bytes) (d k : Nat) :
    Kept A c m (headerBytes m a.page d k) := by
  intro a' ha' b hb _ x hx₁ hx₂
  have := hl.block_header (Finset.mem_insert_of_mem ha') (Finset.mem_insert_self a A) hb
  exact headerBytes_outside (by omega)

/-- The state after pages have been obtained. -/
def gotPages (s : MallocState) (p cnt : Nat) : MallocState :=
  { s with used := fun n => inPages p cnt n || s.used n, log := s.log ++ [.got p cnt] }

theorem wp_pallocGetMultiple (cnt : Nat) (Q : Option Nat → MallocState → Prop) :
    wp (pallocGetMultiple cnt) s Q ↔
      match s.pages cnt with
      | none => Q none s
      | some p => Q (some p) (gotPages s p cnt) := by
  rw [pallocGetMultiple, wp_bind, wp_get]
  cases s.pages cnt with
  | none => rw [wp_pure]
  | some p =>
    rw [wp_bind, wp_set, wp_pure]
    rfl

/-- The first blocks of an arena. -/
def firstBlocks (a : Arena) (k : Nat) : List Nat := (List.range k).map a.block

theorem mem_blocks (hd : a.desc = some i) (hk : k < blocksPerArena i) :
    a.block k ∈ a.blocks := by
  refine Finset.mem_image_of_mem _ (Finset.mem_range.2 ?_)
  rw [Arena.blockCnt, hd]
  exact hk

theorem mem_firstBlocks (hd : a.desc = some i) (x : Nat) :
    x ∈ firstBlocks a (blocksPerArena i) ↔ x ∈ a.blocks := by
  simp only [firstBlocks, Arena.blocks, Arena.blockCnt, hd, mem_map, mem_range,
    Finset.mem_image, Finset.mem_range]

theorem block_not_first (hv : Valid descs a) : a.block k ∉ firstBlocks a k := by
  intro hmem
  obtain ⟨k', hk', he⟩ := mem_map.1 hmem
  have := block_injective hv he
  have := mem_range.1 hk'
  omega

/-- The loop of `malloc` adds the blocks of a new arena to the empty free list. -/
theorem wp_addBlocks {s₁ : MallocState} (ht : Tables descs s₁.mem (insert a A) c F n)
    (hi : i < descTotal) (hd : a.desc = some i) (ha : a ∉ A) (hc : c i = []) :
    wp ((List.range (blocksPerArena i)).forM fun k => do
      let b ← arenaToBlock a.page k
      onMem (listPushBack (freeList (descAt descs i)) (some b))) s₁ fun _ s' =>
        ∃ m' F', s' = { s₁ with mem := m' } ∧
          Tables descs m' (insert a A)
            (update c i (firstBlocks a (blocksPerArena i))) F' n ∧
          Kept A c s₁.mem m' := by
  have haI := Finset.mem_insert_self a A
  refine wp_forM_range (I := fun k t => ∃ m' F', t = { s₁ with mem := m' } ∧
    Tables descs m' (insert a A) (update c i (firstBlocks a k)) F' n ∧
    Kept A c s₁.mem m') ?_ ?_
  · refine ⟨s₁.mem, F, rfl, ?_, fun _ _ _ _ _ _ _ _ => rfl⟩
    have hempty : firstBlocks a 0 = c i := hc.symm
    rw [hempty, update_eq_self]
    exact ht
  · rintro k hk t ⟨m', F', rfl, ht', hkept⟩
    have hnot : a.block k ∉ update c i (firstBlocks a k) i := by
      rw [update_self]
      exact block_not_first (ht.layout.valid a haI)
    have hmem := mem_blocks hd hk
    rw [wp_bind, wp_arenaToBlock ht' haI hd hk]
    refine wp_mono (wp_pushBack ht' hi haI hd hmem hnot) ?_
    rintro - t' ⟨m'', F'', rfl, ht'', hkept'⟩
    have hnext : firstBlocks a k ++ [a.block k] = firstBlocks a (k + 1) := by
      rw [firstBlocks, firstBlocks, range_succ, map_append, map_singleton]
    rw [update_self, update_idem, hnext] at ht'' hkept'
    refine ⟨m'', F'', rfl, ht'', ?_⟩
    -- a block of another arena is not one of the blocks that are added
    intro a' ha' b hb hout x hx₁ hx₂
    refine (hkept' a' (Finset.mem_insert_of_mem ha') b hb ?_ x hx₁ hx₂).trans
      (hkept a' ha' b hb hout x hx₁ hx₂)
    intro j hj
    by_cases hji : j = i
    · rw [hji, update_self]
      intro hmem'
      obtain ⟨k', hk', rfl⟩ := mem_map.1 hmem'
      have hk' := mem_range.1 hk'
      have hb' := mem_blocks hd (lt_of_lt_of_le hk' hk)
      have haa := ht.layout.arena_unique (Finset.mem_insert_of_mem ha') haI hb hb'
      rw [haa] at ha'
      exact ha ha'
    · rw [update_of_ne hji]
      exact hout j hj

/-- The state after a new arena has been made. -/
def Extended (descs : Nat) (s : MallocState) (A : Finset Arena) (c : Nat → List Nat)
    (n : Arena → Nat) (i : Nat) (s' : MallocState) : Prop :=
  ∃ p m' F', s.pages 1 = some p ∧ s' = { gotPages s p 1 with mem := m' } ∧
    (⟨p, 1, some i⟩ : Arena) ∉ A ∧
    Tables descs m' (insert ⟨p, 1, some i⟩ A)
      (update c i (firstBlocks ⟨p, 1, some i⟩ (blocksPerArena i))) F'
      (update n ⟨p, 1, some i⟩ (blocksPerArena i)) ∧
    Kept A c s.mem m'

theorem wp_newArena (ht : Tables descs s.mem A c F n) (hi : i < descTotal) (hc : c i = [])
    (hfresh : ∀ p, s.pages 1 = some p → FreshPages descs s 1 p) (hused : AllUsed s A) :
    wp (newArena (descAt descs i)) s fun r s' =>
      (r = false ∧ s' = s) ∨ (r = true ∧ Extended descs s A c n i s') := by
  rw [newArena, wp_bind, wp_pallocGetMultiple]
  cases hp : s.pages 1 with
  | none =>
    rw [wp_pure]
    exact .inl ⟨rfl, rfl⟩
  | some p =>
    obtain ⟨hl, ha⟩ := (hfresh p hp).layout le_rfl ht.layout hused
      (d := some i) (fun j hj => ⟨Option.some.inj hj ▸ hi, rfl⟩)
    have hcnt : blocksPerArena i < 2 ^ 64 := by
      have : blocksPerArena i ≤ 4072 := Nat.div_le_self _ _
      omega
    have hadd := tables_addArena ht hl ha hcnt
    change wp (read64 (descAt descs i + 8) >>= fun _ => _) (gotPages s p 1) _
    rw [wp_bind, wp_read64]
    have hfield : readLE (gotPages s p 1).mem 8 (descAt descs i + 8) = blocksPerArena i :=
      (ht.fields i hi).2
    rw [hfield, wp_bind, wp_writeArena, wp_bind]
    refine wp_mono (wp_addBlocks (a := ⟨p, 1, some i⟩) hadd hi rfl ha hc) ?_
    rintro - s' ⟨m', F', rfl, ht', hkept⟩
    rw [wp_pure]
    exact .inr ⟨rfl, p, m', F', hp, rfl, ha, ht',
      kept_trans (kept_headerBytes (a := ⟨p, 1, some i⟩) hl _ _ _) hkept⟩

/-! ## Dissolving an arena -/

/-- The state after pages have been returned. -/
def freedPages (s : MallocState) (p cnt : Nat) : MallocState :=
  { s with
    mem := fill s.mem p (4096 * cnt) 0xcc
    used := fun n => !inPages p cnt n && s.used n
    log := s.log ++ [.freed p cnt] }

theorem wp_pallocFreeMultiple (hused : AllUsed s A) (hv : Valid descs a) (ha : a ∈ A)
    (Q : Unit → MallocState → Prop) :
    wp (pallocFreeMultiple a.page a.pages) s Q ↔ Q () (freedPages s a.page a.pages) := by
  have hofs : pgOfs a.page = 0 := by rw [pgOfs_eq, hv.aligned]
  have hpos := hv.pos
  have hcnt := hv.nonempty
  have hguard : ¬ (a.page = 0 ∨ a.pages = 0) := by omega
  rw [pallocFreeMultiple, wp_bind, wp_check, if_neg hguard]
  rw [wp_bind, wp_memset, wp_bind, wp_get, wp_bind, wp_check, wp_set]
  exact ⟨fun h => h.2.2, fun hQ => ⟨hofs, hused a ha, hQ⟩⟩

/-- The loop of `free` removes the blocks of an arena from the free list. -/
theorem wp_removeBlocks (ht : Tables descs s.mem A c F n) (hi : i < descTotal) (ha : a ∈ A)
    (hd : a.desc = some i) (hall : ∀ b ∈ a.blocks, b ∈ c i) :
    wp ((List.range (blocksPerArena i)).forM fun k => do
      let b ← arenaToBlock a.page k
      let _ ← onMem (listRemove (some b))) s fun _ s' =>
        ∃ m' F', s' = { s with mem := m' } ∧
          Tables descs m' A (update c i ((c i).filter (· ∉ a.blocks))) F' n ∧
          Kept A c s.mem m' := by
  have hend : (c i).filter (· ∉ firstBlocks a (blocksPerArena i)) =
      (c i).filter (· ∉ a.blocks) :=
    filter_congr fun x _ => by rw [decide_eq_decide, mem_firstBlocks hd x]
  rw [← hend]
  refine wp_forM_range (I := fun k t => ∃ m' F', t = { s with mem := m' } ∧
    Tables descs m' A (update c i ((c i).filter (· ∉ firstBlocks a k))) F' n ∧
    Kept A c s.mem m') ?_ ?_
  · refine ⟨s.mem, F, rfl, ?_, fun _ _ _ _ _ _ _ _ => rfl⟩
    have hall : (c i).filter (· ∉ firstBlocks a 0) = c i :=
      filter_eq_self.2 fun x _ => by simp [firstBlocks]
    rw [hall, update_eq_self]
    exact ht
  · rintro k hk t ⟨m', F', rfl, ht', hkept⟩
    have hnd := nodup_list ht hi
    have hmem : a.block k ∈ update c i ((c i).filter (· ∉ firstBlocks a k)) i := by
      rw [update_self, mem_filter]
      exact ⟨hall _ (mem_blocks hd hk), decide_eq_true (block_not_first (ht.layout.valid a ha))⟩
    rw [wp_bind, wp_arenaToBlock ht' ha hd hk, wp_bind]
    refine wp_mono (wp_remove ht' hi hmem) ?_
    rintro - t' ⟨m'', F'', rfl, ht'', hkept'⟩
    have hnext : ((c i).filter (· ∉ firstBlocks a k)).erase (a.block k) =
        (c i).filter (· ∉ firstBlocks a (k + 1)) := by
      rw [(hnd.filter _).erase_eq_filter, filter_filter]
      refine filter_congr fun x _ => ?_
      simp only [firstBlocks, range_succ, map_append, map_singleton,
        mem_append, mem_singleton]
      by_cases hx : x = a.block k <;> simp [hx]
    rw [update_self, update_idem, hnext] at ht'' hkept'
    rw [wp_pure]
    refine ⟨m'', F'', rfl, ht'', ?_⟩
    intro a' ha' b hb hout x hx₁ hx₂
    refine (hkept' a' ha' b hb ?_ x hx₁ hx₂).trans (hkept a' ha' b hb hout x hx₁ hx₂)
    intro j hj hmem'
    by_cases hji : j = i
    · rw [hji, update_self] at hmem'
      exact hout i hi (mem_of_mem_filter hmem')
    · rw [update_of_ne hji] at hmem'
      exact hout j hj hmem'

/-- Pages without a listed block may be filled. -/
theorem tables_removeArena (ht : Tables descs m A c F n) (ha : a ∈ A)
    (hnone : ∀ j < descTotal, ∀ x ∈ c j, x ∉ a.blocks) (v : UInt8) :
    Tables descs (fill m a.page (4096 * a.pages) v) (A.erase a) c F n := by
  have hsub := Finset.erase_subset a A
  have hstop := stop_eq a
  have hshape : ∀ j < descTotal, ∀ x ∈ c j, ∃ a' ∈ A.erase a, a'.desc = some j ∧ x ∈ a'.blocks := by
    intro j hj x hx
    obtain ⟨a', ha', hd', hxa⟩ := ht.shape.blocks j hj x hx
    refine ⟨a', Finset.mem_erase.2 ⟨?_, ha'⟩, hd', hxa⟩
    rintro rfl
    exact hnone j hj x hx hxa
  have hold : Tables descs m (A.erase a) c F n :=
    ⟨ht.layout.subset hsub, ⟨ht.shape.lists, ht.shape.only, hshape⟩, ht.wf, ht.fields,
      fun a' ha' => ht.headers a' (hsub ha')⟩
  refine hold.congr fun x hx => patch_outside ?_
  rcases hx with hx | ⟨a', ha', hx⟩ | ⟨j, hj, y, hy, hx⟩
  · have := (ht.layout.valid a ha).outside
    omega
  · have hne := Finset.ne_of_mem_erase ha'
    have := ht.layout.apart a' (hsub ha') a ha hne
    have := (ht.layout.valid a' (hsub ha')).nonempty
    have := stop_eq a'
    omega
  · obtain ⟨a', ha', -, hya⟩ := hshape j hj y hy
    have hne := Finset.ne_of_mem_erase ha'
    have := ht.layout.apart a' (hsub ha') a ha hne
    have := block_range (ht.layout.valid a' (hsub ha')) hya
    have := blockSize_ge (ht.layout.valid a' (hsub ha'))
    omega

theorem kept_removeArena (hl : Layout descs A) (ha : a ∈ A) (m : Bytes) (v : UInt8) :
    Kept (A.erase a) c m (fill m a.page (4096 * a.pages) v) := by
  intro a' ha' b hb _ x hx₁ hx₂
  have hmem := Finset.mem_of_mem_erase ha'
  have := hl.apart a' hmem a ha (Finset.ne_of_mem_erase ha')
  have := block_range (hl.valid a' hmem) hb
  have := stop_eq a
  exact patch_outside (by omega)

/-- The state after an arena has been dissolved. -/
def Dissolved (descs : Nat) (s : MallocState) (A : Finset Arena) (c : Nat → List Nat)
    (n : Arena → Nat) (a : Arena) (i : Nat) (s' : MallocState) : Prop :=
  ∃ m' F', s' = { freedPages s a.page a.pages with mem := m' } ∧
    Tables descs m' (A.erase a) (update c i ((c i).filter (· ∉ a.blocks))) F' n ∧
    Kept (A.erase a) c s.mem m'

theorem wp_dissolve (ht : Tables descs s.mem A c F n) (hi : i < descTotal) (ha : a ∈ A)
    (hd : a.desc = some i) (hall : ∀ b ∈ a.blocks, b ∈ c i) (hn : n a = blocksPerArena i)
    (hused : AllUsed s A) :
    wp (dissolve a.page (descAt descs i)) s fun _ s' => Dissolved descs s A c n a i s' := by
  have hv := ht.layout.valid a ha
  have hpages : a.pages = 1 := (hv.small i hd).2
  have hfree := (ht.headers a ha).free
  rw [dissolve]
  simp only [wp_bind, wp_read64, wp_check, hfree, (ht.fields i hi).2, hn, true_and]
  refine wp_mono (wp_removeBlocks ht hi ha hd hall) ?_
  rintro - s' ⟨m', F', rfl, ht', hkept⟩
  have hfill := wp_pallocFreeMultiple (s := { s with mem := m' }) hused hv ha
  rw [hpages] at hfill
  rw [hfill]
  have hnone : ∀ j < descTotal, ∀ x ∈ update c i ((c i).filter (· ∉ a.blocks)) j,
      x ∉ a.blocks := by
    intro j hj x hx hxa
    by_cases hji : j = i
    · rw [hji, update_self, mem_filter] at hx
      exact of_decide_eq_true hx.2 hxa
    · obtain ⟨a', ha', hd', hxa'⟩ := ht'.shape.blocks j hj x hx
      exact hji (ht.layout.desc_unique ha ha' hxa hxa' hd hd')
  have hremove := tables_removeArena ht' ha hnone 0xcc
  rw [hpages] at hremove
  refine ⟨_, F', ?_, hremove, ?_⟩
  · rw [hpages]
    rfl
  · intro a' ha' b hb hout x hx₁ hx₂
    have hk := kept_removeArena (c := c) ht.layout ha m' 0xcc a' ha' b hb hout x hx₁ hx₂
    rw [hpages] at hk
    exact hk.trans (hkept a' (Finset.mem_of_mem_erase ha') b hb hout x hx₁ hx₂)

end Pintos.Threads.MallocSteps
