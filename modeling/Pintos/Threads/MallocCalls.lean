import Pintos.Threads.MallocSteps

/-!
# `malloc` and `free`

The invariant of the heap between calls, and what `malloc` and `free` do to it. `Books` relates the
blocks in use to the free lists, and the arenas to the pages that have been obtained: a block of a
descriptor's arena is on the free list exactly when it is not in use. Between calls every arena has
a block in use (`HeapInv`); inside a call one arena may be the exception.
-/

set_option autoImplicit false

namespace Pintos.Threads.MallocCalls

open Function Lib.StateExcept Lib.ByteMemory Finset
open LibKernel.List LibKernel.ListFamily
open LibKernel.ListMemory
open Vaddr Malloc MallocArenas
open MallocSteps

/-! ## The invariant -/

/-- The ranges of pages after an event. -/
def afterEvent (held : Finset (Nat × Nat)) : PageEvent → Finset (Nat × Nat)
  | .got p cnt => insert (p, cnt) held
  | .freed p cnt => held.erase (p, cnt)

/-- The ranges of pages that have been obtained and not returned. -/
def heldOf (log : List PageEvent) : Finset (Nat × Nat) := log.foldl afterEvent ∅

theorem heldOf_concat (log : List PageEvent) (e : PageEvent) :
    heldOf (log ++ [e]) = afterEvent (heldOf log) e := by
  rw [heldOf, List.foldl_append]
  rfl

/-- Which blocks are in use, and which pages. -/
structure Books (s : MallocState) (live : Finset Nat) (A : Finset Arena) (c : Nat → List Nat) :
    Prop where
  used : AllUsed s A
  held : heldOf s.log = A.image fun a => (a.page, a.pages)
  inArena : ∀ b ∈ live, ∃ a ∈ A, b ∈ a.blocks
  free : ∀ i, ∀ a ∈ A, a.desc = some i → ∀ x ∈ a.blocks, (x ∈ c i ↔ x ∉ live)
  big : ∀ a ∈ A, a.desc = none → ∀ x ∈ a.blocks, x ∈ live

/-- The heap between calls. -/
structure HeapInv (descs : Nat) (s : MallocState) (live : Finset Nat) (A : Finset Arena)
    (c : Nat → List Nat) (F : Family Nat) : Prop where
  tables : Tables descs s.mem A c F fun a => a.freeCnt live
  cnt : s.descCnt = descTotal
  unlocked : ∀ i < descTotal, s.locked (descAt descs i) = false
  books : Books s live A c
  inUse : ∀ a ∈ A, ∃ b ∈ a.blocks, b ∈ live

/-- The blocks `live` are still there, with their contents. -/
def Survive (A A' : Finset Arena) (live : Finset Nat) (m m' : Bytes) : Prop :=
  ∀ a ∈ A, ∀ b ∈ a.blocks, b ∈ live → a ∈ A' ∧ ∀ x, b ≤ x → x < b + a.blockSize → m' x = m x

variable {p cnt k : Nat} {rest : List Nat} {s' s₁ : MallocState}

section Books

variable {descs : Nat} {s : MallocState} {live : Finset Nat} {A : Finset Arena}
  {c : Nat → List Nat} {F : Family Nat} {n : Arena → Nat} {a : Arena} {i e : Nat}

theorem Books.not_listed {m : Bytes} (hb : Books s live A c) (ht : Tables descs m A c F n)
    (he : e ∈ live) : ∀ j < descTotal, e ∉ c j := by
  intro j hj hmem
  obtain ⟨a, ha, hd, hea⟩ := ht.shape.blocks j hj e hmem
  exact (hb.free j a ha hd e hea).1 hmem he

/-- Two arenas in the same pages are the same, being apart otherwise. -/
theorem page_injective (hl : Layout descs A) :
    ∀ a ∈ A, ∀ a' ∈ A, a.page = a'.page → a = a' := by
  intro a ha a' ha' hpage
  by_contra hne
  have := hl.apart a ha a' ha' hne
  have := (hl.valid a ha).nonempty
  have := (hl.valid a' ha').nonempty
  have := stop_eq a
  have := stop_eq a'
  omega

/-! ### Counts -/

theorem freeCnt_congr {live' : Finset Nat} (h : ∀ x ∈ a.blocks, (x ∈ live' ↔ x ∈ live)) :
    a.freeCnt live' = a.freeCnt live := by
  have hsdiff : a.blocks \ live' = a.blocks \ live := by
    ext x
    simp only [mem_sdiff]
    exact and_congr_right fun hx => not_congr (h x hx)
  simp only [Arena.freeCnt, hsdiff]

/-- The counts when the block `e` of the arena `a` changes hands. -/
theorem freeCnt_update {live' : Finset Nat} {v : Nat} (hl : Layout descs A) (ha : a ∈ A)
    (he : e ∈ a.blocks) (hlive : ∀ x ≠ e, (x ∈ live' ↔ x ∈ live)) (hself : a.freeCnt live' = v)
    (hn : ∀ a' ∈ A, n a' = a'.freeCnt live) : ∀ a' ∈ A, a'.freeCnt live' = update n a v a' := by
  intro a' ha'
  by_cases haa : a' = a
  · rw [haa, update_self, hself]
  · rw [update_of_ne haa, hn a' ha']
    refine freeCnt_congr fun x hx => hlive x ?_
    rintro rfl
    exact haa (hl.arena_unique ha' ha hx he)

/-- One free block less. -/
theorem freeCnt_insert (live : Finset Nat) (hd : a.desc = some i) (he : e ∈ a.blocks)
    (hlive : e ∉ live) : a.freeCnt (insert e live) = a.freeCnt live - 1 ∧ 1 ≤ a.freeCnt live := by
  have hmem : e ∈ a.blocks \ live := mem_sdiff.2 ⟨he, hlive⟩
  simp only [Arena.freeCnt, hd]
  rw [sdiff_insert, card_erase_of_mem hmem]
  exact ⟨rfl, card_pos.2 ⟨e, hmem⟩⟩

/-- One free block more. -/
theorem freeCnt_erase (hd : a.desc = some i) (he : e ∈ a.blocks) (hlive : e ∈ live) :
    a.freeCnt (live.erase e) = a.freeCnt live + 1 := by
  obtain ⟨h, hpos⟩ := freeCnt_insert (live.erase e) hd he (notMem_erase e live)
  rw [insert_erase hlive] at h
  omega

theorem blockCnt_some (hd : a.desc = some i) : a.blockCnt = blocksPerArena i := by
  rw [Arena.blockCnt, hd]

theorem freeCnt_le (live : Finset Nat) (hv : Valid descs a) (hd : a.desc = some i) :
    a.freeCnt live ≤ blocksPerArena i := by
  simp only [Arena.freeCnt, hd]
  rw [← blockCnt_some hd, ← card_blocks hv]
  exact card_le_card sdiff_subset

/-- All blocks are free when the count says so. -/
theorem freeCnt_eq_iff (hv : Valid descs a) (hd : a.desc = some i) :
    a.freeCnt live = blocksPerArena i ↔ ∀ b ∈ a.blocks, b ∉ live := by
  simp only [Arena.freeCnt, hd]
  rw [← blockCnt_some hd, ← card_blocks hv]
  constructor
  · intro h b hb hlive
    have hsub := eq_of_subset_of_card_le sdiff_subset h.ge
    rw [← hsub] at hb
    exact (mem_sdiff.1 hb).2 hlive
  · intro h
    rw [sdiff_eq_self_of_disjoint (disjoint_left.2 h)]

/-! ### Pages -/

theorem inPages_iff : inPages p cnt k = true ↔ p / 4096 ≤ k ∧ k < p / 4096 + cnt := by
  change (decide (p / 4096 ≤ k) && decide (k < p / 4096 + cnt)) = true ↔ _
  rw [Bool.and_eq_true, decide_eq_true_eq, decide_eq_true_eq]

theorem allUsed_got (hu : AllUsed s A) : AllUsed (gotPages s a.page a.pages) (insert a A) := by
  intro a' ha' k hk
  rw [gotPages, Bool.or_eq_true, inPages_iff]
  rcases mem_insert.1 ha' with rfl | ha'
  · exact .inl ⟨by omega, by omega⟩
  · exact .inr (hu a' ha' k hk)

theorem allUsed_freed (hl : Layout descs A) (hu : AllUsed s A) (ha : a ∈ A) :
    AllUsed (freedPages s a.page a.pages) (A.erase a) := by
  intro a' ha' k hk
  have hmem := mem_of_mem_erase ha'
  have hout : inPages a.page a.pages (a'.page / 4096 + k) = false := by
    rw [Bool.eq_false_iff, Ne, inPages_iff]
    have := hl.apart a' hmem a ha (ne_of_mem_erase ha')
    have := stop_eq a
    have := stop_eq a'
    omega
  change (!inPages a.page a.pages (a'.page / 4096 + k) && s.used (a'.page / 4096 + k)) = true
  rw [hout]
  exact hu a' hmem k hk

theorem held_got (hh : heldOf s.log = A.image fun a => (a.page, a.pages)) :
    heldOf (gotPages s a.page a.pages).log = (insert a A).image fun a => (a.page, a.pages) := by
  rw [gotPages, heldOf_concat, hh, image_insert]
  rfl

theorem held_freed (hl : Layout descs A) (hh : heldOf s.log = A.image fun a => (a.page, a.pages))
    (ha : a ∈ A) :
    heldOf (freedPages s a.page a.pages).log = (A.erase a).image fun a => (a.page, a.pages) := by
  rw [freedPages, heldOf_concat, hh]
  ext r
  simp only [afterEvent, mem_erase, mem_image]
  constructor
  · rintro ⟨hne, a', ha', rfl⟩
    refine ⟨a', ⟨?_, ha'⟩, rfl⟩
    rintro rfl
    exact hne rfl
  · rintro ⟨a', ⟨hne, ha'⟩, rfl⟩
    refine ⟨fun h => hne (page_injective hl a' ha' a ha (congrArg Prod.fst h)), a', ha', rfl⟩

/-! ### Blocks change hands -/

section

variable (hb : Books s live A c)
include hb

/-- A block goes from the front of its free list into use. -/
theorem Books.take (ht : Tables descs s.mem A c F n) (hi : i < descTotal) (hc : c i = e :: rest)
    (ha : a ∈ A) (hd : a.desc = some i) (he : e ∈ a.blocks) :
    Books s (insert e live) A (update c i rest) where
  used := hb.used
  held := hb.held
  inArena := by
    intro b hbl
    rcases mem_insert.1 hbl with rfl | hbl
    · exact ⟨a, ha, he⟩
    · exact hb.inArena b hbl
  free := by
    intro j a' ha' hd' x hx
    have hold := hb.free j a' ha' hd' x hx
    rw [mem_insert, not_or]
    by_cases hji : j = i
    · have hnd := nodup_list ht hi
      rw [hc, List.nodup_cons] at hnd
      rw [hji, hc, List.mem_cons] at hold
      rw [hji, update_self, ← hold]
      constructor
      · intro hxr
        refine ⟨?_, .inr hxr⟩
        rintro rfl
        exact hnd.1 hxr
      · rintro ⟨hne, hxe⟩
        exact hxe.resolve_left hne
    · have hne : x ≠ e := by
        rintro rfl
        exact hji (ht.layout.desc_unique ha ha' he hx hd hd')
      rw [update_of_ne hji, hold]
      exact ⟨fun h => ⟨hne, h⟩, fun h => h.2⟩
  big := fun a' ha' hd' x hx => mem_insert_of_mem (hb.big a' ha' hd' x hx)

/-- A block goes from use to the front of its free list. -/
theorem Books.give (hl : Layout descs A) (ha : a ∈ A) (hd : a.desc = some i) (he : e ∈ a.blocks) :
    Books s (live.erase e) A (update c i (e :: c i)) where
  used := hb.used
  held := hb.held
  inArena := fun b hbl => hb.inArena b (mem_of_mem_erase hbl)
  free := by
    intro j a' ha' hd' x hx
    have hold := hb.free j a' ha' hd' x hx
    rw [mem_erase, not_and_or, not_not]
    by_cases hji : j = i
    · rw [hji, update_self, List.mem_cons, ← hold, hji]
    · have hne : x ≠ e := by
        rintro rfl
        exact hji (hl.desc_unique ha ha' he hx hd hd')
      rw [update_of_ne hji, hold]
      exact ⟨.inr, fun h => h.resolve_left hne⟩
  big := by
    intro a' ha' hd' x hx
    refine mem_erase.2 ⟨?_, hb.big a' ha' hd' x hx⟩
    rintro rfl
    have haa := hl.arena_unique ha ha' he hx
    rw [← haa, hd] at hd'
    cases hd'

/-- A new arena, all of whose blocks are on the free list. -/
theorem Books.addArena (hl : Layout descs (insert a A)) (ha : a ∉ A) (hd : a.desc = some i)
    (hc : c i = []) :
    Books (gotPages s a.page a.pages) live (insert a A)
      (update c i (firstBlocks a (blocksPerArena i))) where
  used := allUsed_got hb.used
  held := held_got hb.held
  inArena := by
    intro b hbl
    obtain ⟨a', ha', hba⟩ := hb.inArena b hbl
    exact ⟨a', mem_insert_of_mem ha', hba⟩
  free := by
    intro j a' ha' hd' x hx
    have hfirst := mem_firstBlocks hd
    have hmine : x ∈ a.blocks → a' = a :=
      fun hxa => hl.arena_unique ha' (mem_insert_self a A) hx hxa
    rcases mem_insert.1 ha' with haa | ha''
    · rw [haa, hd, Option.some.injEq] at hd'
      rw [haa] at hx
      rw [← hd', update_self, hfirst]
      refine ⟨fun _ hlive => ?_, fun _ => hx⟩
      obtain ⟨a₁, ha₁, hx₁⟩ := hb.inArena x hlive
      have := hl.arena_unique (mem_insert_of_mem ha₁) (mem_insert_self a A) hx₁ hx
      rw [this] at ha₁
      exact ha ha₁
    · have hold := hb.free j a' ha'' hd' x hx
      by_cases hji : j = i
      · rw [hji, hc] at hold
        rw [hji, update_self, hfirst, ← hold]
        refine ⟨fun hxa => ?_, fun h => absurd h List.not_mem_nil⟩
        rw [hmine hxa] at ha''
        exact absurd ha'' ha
      · rw [update_of_ne hji, hold]
  big := by
    intro a' ha' hd' x hx
    rcases mem_insert.1 ha' with haa | ha''
    · rw [haa, hd] at hd'
      cases hd'
    · exact hb.big a' ha'' hd' x hx

/-- A new big block. -/
theorem Books.addBig (hl : Layout descs (insert a A)) (ha : a ∉ A) (hd : a.desc = none) :
    Books (gotPages s a.page a.pages) (insert (a.page + 24) live) (insert a A) c where
  used := allUsed_got hb.used
  held := held_got hb.held
  inArena := by
    intro b hbl
    rcases mem_insert.1 hbl with rfl | hbl
    · exact ⟨a, mem_insert_self a A, (mem_blocks_big hd).2 rfl⟩
    · obtain ⟨a', ha', hba⟩ := hb.inArena b hbl
      exact ⟨a', mem_insert_of_mem ha', hba⟩
  free := by
    intro j a' ha' hd' x hx
    rcases mem_insert.1 ha' with haa | ha''
    · rw [haa, hd] at hd'
      cases hd'
    · have hne : x ≠ a.page + 24 := by
        have hne : a ≠ a' := by
          rintro rfl
          exact ha ha''
        have := hl.apart a (mem_insert_self a A) a' ha' hne
        have := block_range (hl.valid a' ha') hx
        have := (hl.valid a (mem_insert_self a A)).nonempty
        have := stop_eq a
        omega
      rw [hb.free j a' ha'' hd' x hx, mem_insert, not_or]
      exact ⟨fun h => ⟨hne, h⟩, fun h => h.2⟩
  big := by
    intro a' ha' hd' x hx
    rcases mem_insert.1 ha' with haa | ha''
    · rw [haa, mem_blocks_big hd] at hx
      exact mem_insert.2 (.inl hx)
    · exact mem_insert_of_mem (hb.big a' ha'' hd' x hx)

/-- The pages of an arena without a block in use are returned. -/
theorem Books.removeArena (hl : Layout descs A) (ha : a ∈ A) {live' : Finset Nat}
    (hnone : ∀ b ∈ a.blocks, b ∉ live') (hlive : ∀ x, x ∉ a.blocks → (x ∈ live' ↔ x ∈ live))
    (c' : Nat → List Nat) (hc : ∀ j x, x ∉ a.blocks → (x ∈ c' j ↔ x ∈ c j)) :
    Books (freedPages s a.page a.pages) live' (A.erase a) c' := by
  have hout : ∀ a' ∈ A.erase a, ∀ x ∈ a'.blocks, x ∉ a.blocks := fun a' ha' x hx hxa =>
    ne_of_mem_erase ha' (hl.arena_unique (mem_of_mem_erase ha') ha hx hxa)
  refine ⟨allUsed_freed hl hb.used ha, held_freed hl hb.held ha, ?_, ?_, ?_⟩
  · intro b hbl
    have hba : b ∉ a.blocks := fun h => hnone b h hbl
    obtain ⟨a', ha', hba'⟩ := hb.inArena b ((hlive b hba).1 hbl)
    refine ⟨a', mem_erase.2 ⟨?_, ha'⟩, hba'⟩
    rintro rfl
    exact hba hba'
  · intro j a' ha' hd' x hx
    have hxa := hout a' ha' x hx
    rw [hc j x hxa, hlive x hxa, hb.free j a' (mem_of_mem_erase ha') hd' x hx]
  · intro a' ha' hd' x hx
    exact (hlive x (hout a' ha' x hx)).2 (hb.big a' (mem_of_mem_erase ha') hd' x hx)

/-- Memory and locks are not in the books. -/
theorem Books.state (hu : s'.used = s.used) (hlog : s'.log = s.log) :
    Books s' live A c where
  used := by
    intro a ha k hk
    rw [hu]
    exact hb.used a ha k hk
  held := by rw [hlog, hb.held]
  inArena := hb.inArena
  free := hb.free
  big := hb.big

end

end Books

/-! ## `malloc` -/

/-- The blocks in use after `malloc` has returned `r`. -/
def withBlock (live : Finset Nat) : Option Nat → Finset Nat
  | some b => insert b live
  | none => live

section Malloc

variable {descs : Nat} {s : MallocState} {live : Finset Nat} {A : Finset Arena}
  {c : Nat → List Nat} {F : Family Nat} {n : Arena → Nat} {i size : Nat}

/-- What `malloc (size)` does: the heap is in order with the new block in use, no block that was in
use has changed, pages were obtained at most, and the block is large enough. -/
def Malloced (descs : Nat) (s : MallocState) (live : Finset Nat) (A : Finset Arena) (size : Nat)
    (r : Option Nat) (s' : MallocState) : Prop :=
  ∃ A' c' F', HeapInv descs s' (withBlock live r) A' c' F' ∧ Survive A A' live s.mem s'.mem ∧
    (s'.log = s.log ∨ ∃ p cnt, s'.log = s.log ++ [.got p cnt]) ∧
    ∀ b, r = some b → b ∉ live ∧ ∃ a ∈ A', b ∈ a.blocks ∧ size ≤ a.blockSize

/-- After the lock of a descriptor is released. -/
theorem unlocked_release {locked : Nat → Bool}
    (h : ∀ j < descTotal, j ≠ i → locked (descAt descs j) = false) :
    ∀ j < descTotal, update locked (descAt descs i) false (descAt descs j) = false := by
  intro j hj
  by_cases hji : j = i
  · rw [hji]
    exact update_self ..
  · refine (update_of_ne ?_ ..).trans (h j hj hji)
    rw [descAt_eq, descAt_eq]
    omega

/-- The end of `malloc`: a block is taken and the lock released. Every arena has a block in use,
but for the arena of the block. -/
theorem wp_takeAndRelease (ht : Tables descs s.mem A c F n) (hi : i < descTotal)
    (hn : ∀ a ∈ A, n a = a.freeCnt live) (hb : Books s live A c) {e : Nat} (hc : c i = e :: rest)
    (hcnt : s.descCnt = descTotal) (hlock : s.locked (descAt descs i) = true)
    (hothers : ∀ j < descTotal, j ≠ i → s.locked (descAt descs j) = false)
    (hinUse : ∀ a ∈ A, e ∉ a.blocks → ∃ b ∈ a.blocks, b ∈ live) :
    wp (do
      let b ← takeBlock (descAt descs i)
      lockRelease (descAt descs i)
      return some b) s fun r s' => r = some e ∧ e ∉ live ∧ s'.log = s.log ∧
        (∃ a ∈ A, a.desc = some i ∧ e ∈ a.blocks) ∧
        (∃ F', HeapInv descs s' (insert e live) A (update c i rest) F') ∧
        Survive A A live s.mem s'.mem := by
  have hmem : e ∈ c i := by
    rw [hc]
    exact List.mem_cons_self
  obtain ⟨a, ha, hd, he⟩ := ht.shape.blocks i hi e hmem
  have hlive : e ∉ live := (hb.free i a ha hd e he).1 hmem
  obtain ⟨hcount, hpos⟩ := freeCnt_insert live hd he hlive
  rw [wp_bind]
  refine wp_mono (wp_takeBlock ht hi hc ha he (by rw [hn a ha]; exact hpos)) ?_
  rintro r s' ⟨rfl, m', F', rfl, ht', hkept⟩
  rw [wp_bind, wp_lockRelease, wp_pure]
  have hbooks := hb.take ht hi hc ha hd he
  refine ⟨hlock, rfl, hlive, rfl, ⟨a, ha, hd, he⟩,
    ⟨F', ?_, hcnt, unlocked_release hothers, hbooks.state rfl rfl, ?_⟩, ?_⟩
  · refine ht'.counts (freeCnt_update ht.layout ha he (fun x hx => ?_) ?_ hn)
    · rw [mem_insert, or_iff_right hx]
    · rw [hn a ha, hcount]
  · intro a' ha'
    by_cases he' : r ∈ a'.blocks
    · exact ⟨r, he', mem_insert_self r live⟩
    · obtain ⟨b, hba, hbl⟩ := hinUse a' ha' he'
      exact ⟨b, hba, mem_insert_of_mem hbl⟩
  · -- a block that was in use is on no list, before and after
    intro a' ha' b hba hbl
    exact ⟨ha', hkept a' ha' b hba (hbooks.not_listed ht' (mem_insert_of_mem hbl))⟩

theorem survive_refl (A : Finset Arena) (live : Finset Nat) (m : Bytes) : Survive A A live m m :=
  fun _ ha _ _ _ => ⟨ha, fun _ _ _ => rfl⟩

/-- A call of `malloc` that obtains nothing. -/
theorem malloced_none (h : HeapInv descs s live A c F) (hs : s' = { s with locked := s'.locked })
    (hun : ∀ i < descTotal, s'.locked (descAt descs i) = false) :
    Malloced descs s live A size none s' := by
  rw [hs]
  exact ⟨A, c, F, ⟨h.tables, h.cnt, hun, h.books.state rfl rfl, h.inUse⟩, survive_refl A live _,
    .inl rfl, by simp⟩

theorem blocksPerArena_pos (hi : i < descTotal) : 0 < blocksPerArena i := by
  refine Nat.div_pos ?_ (lt_of_lt_of_le (by norm_num) (blockSizeOf_ge i))
  exact (blockSizeOf_le hi).trans (by decide)

theorem firstBlocks_cons (a : Arena) (hk : 0 < k) :
    ∃ rest, firstBlocks a k = a.block 0 :: rest := by
  obtain ⟨k, rfl⟩ := Nat.exists_eq_succ_of_ne_zero hk.ne'
  exact ⟨_, by rw [firstBlocks, List.range_succ_eq_map, List.map_cons]⟩

/-- Locking the descriptor `i` when no descriptor is locked. -/
theorem locked_update (hun : ∀ j < descTotal, s.locked (descAt descs j) = false) :
    ∀ j < descTotal, j ≠ i →
      update s.locked (descAt descs i) true (descAt descs j) = false := by
  intro j hj hji
  refine (update_of_ne ?_ ..).trans (hun j hj)
  rw [descAt_eq, descAt_eq]
  omega

/-- The number of pages that `malloc` asks for when no descriptor has blocks of the size. -/
def pageCntOf (size : Nat) : Nat := divRoundUp ((size + sizeofArena) % 2 ^ 64) pgSize

/-- The pages for a request of `size` bytes, if there are any, have room for `room` bytes. -/
def Grants (s : MallocState) (size room : Nat) : Prop :=
  room ≤ size ∧
    (s.pages (pageCntOf size) ≠ none → room + sizeofArena ≤ pgSize * pageCntOf size)

theorem pageCntOf_eq (hsize : size + 4119 < 2 ^ 64) : pageCntOf size = (size + 4119) / 4096 := by
  simp only [pageCntOf, divRoundUp, sizeofArena, pgSize]
  omega

theorem grants_of_lt (s : MallocState) (hsize : size + 4119 < 2 ^ 64) : Grants s size size := by
  refine ⟨le_rfl, fun _ => ?_⟩
  rw [pageCntOf_eq hsize]
  simp only [sizeofArena, pgSize]
  omega

/-- A big block in pages that could be obtained. -/
theorem wp_writeBig (h : HeapInv descs s live A c F) (hcnt : 1 ≤ cnt)
    (hf : FreshPages descs s cnt p) :
    wp (do
      writeArena p 0 cnt
      return some (p + sizeofArena)) (gotPages s p cnt) fun r s' => r = some (p + 24) ∧
        p + 24 ∉ live ∧ s'.log = s.log ++ [.got p cnt] ∧
        p + 24 ∈ (⟨p, cnt, none⟩ : Arena).blocks ∧
        HeapInv descs s' (insert (p + 24) live) (insert ⟨p, cnt, none⟩ A) c F ∧
        Survive A (insert ⟨p, cnt, none⟩ A) live s.mem s'.mem := by
  obtain ⟨hl, ha⟩ := hf.layout hcnt h.tables.layout h.books.used (d := none) (by simp)
  have haI := mem_insert_self (⟨p, cnt, none⟩ : Arena) A
  have hk : cnt < 2 ^ 64 := by
    have := hf.top
    omega
  have hadd := tables_addArena h.tables hl ha hk
  have hbooks : Books (gotPages s p cnt) (insert (p + 24) live) (insert ⟨p, cnt, none⟩ A) c :=
    h.books.addBig hl ha rfl
  have hblock : p + 24 ∈ (⟨p, cnt, none⟩ : Arena).blocks := (mem_blocks_big rfl).2 rfl
  have hnew : p + 24 ∉ live := by
    intro hlive
    obtain ⟨a', ha', hb⟩ := h.books.inArena _ hlive
    have haa := hl.arena_unique (mem_insert_of_mem ha') haI hb hblock
    rw [haa] at ha'
    exact ha ha'
  rw [wp_bind, wp_writeArena, wp_pure]
  refine ⟨rfl, hnew, rfl, hblock, ⟨?_, h.cnt, h.unlocked, hbooks.state rfl rfl, ?_⟩, ?_⟩
  · refine hadd.counts (freeCnt_update hl haI hblock (fun x hx => ?_) rfl fun _ _ => rfl)
    rw [mem_insert, or_iff_right hx]
  · intro a' ha'
    rcases mem_insert.1 ha' with rfl | ha'
    · exact ⟨p + 24, hblock, mem_insert_self _ _⟩
    · obtain ⟨b, hb, hbl⟩ := h.inUse a' ha'
      exact ⟨b, hb, mem_insert_of_mem hbl⟩
  · intro a' ha' b hb hbl
    exact ⟨mem_insert_of_mem ha', kept_headerBytes (c := c) hl s.mem _ _ a' ha' b hb
      (h.books.not_listed h.tables hbl)⟩

theorem wp_bigBlock (h : HeapInv descs s live A c F)
    (hsize : s.pages cnt ≠ none → size + 24 ≤ 4096 * cnt)
    (hfresh : ∀ p, 1 ≤ cnt → s.pages cnt = some p → FreshPages descs s cnt p) :
    wp (bigBlock cnt) s (Malloced descs s live A size) := by
  rw [bigBlock, wp_bind, wp_pallocGetMultiple]
  cases hp : s.pages cnt with
  | none =>
    rw [wp_pure]
    exact malloced_none h rfl h.unlocked
  | some p =>
    rw [hp] at hsize
    have hroom := hsize (Option.some_ne_none p)
    have hcnt : 1 ≤ cnt := by omega
    refine wp_mono (wp_writeBig h hcnt (hfresh p hcnt hp)) ?_
    rintro r s' ⟨rfl, hnew, hlog, hblock, hinv, hsur⟩
    refine ⟨_, c, F, hinv, hsur, .inr ⟨p, cnt, hlog⟩, ?_⟩
    rintro b ⟨⟩
    refine ⟨hnew, _, mem_insert_self _ A, hblock, ?_⟩
    simp only [Arena.blockSize, pgSize, sizeofArena]
    omega

/-- The end of `malloc` after an arena has been made. -/
theorem wp_takeFromNew (h : HeapInv descs s live A c F) (hi : i < descTotal) (hc : c i = [])
    (hext : Extended descs { s with locked := update s.locked (descAt descs i) true } A c
      (fun a => a.freeCnt live) i s₁) (hle : size ≤ blockSizeOf i) :
    wp (do
      let b ← takeBlock (descAt descs i)
      lockRelease (descAt descs i)
      return some b) s₁ (Malloced descs s live A size) := by
  obtain ⟨p, m', F', -, rfl, ha, ht', hkept⟩ := hext
  obtain ⟨rest, hfirst⟩ := firstBlocks_cons ⟨p, 1, some i⟩ (blocksPerArena_pos hi)
  rw [hfirst] at ht'
  have haI := mem_insert_self (⟨p, 1, some i⟩ : Arena) A
  have hblock := mem_blocks (a := ⟨p, 1, some i⟩) rfl (blocksPerArena_pos hi)
  have hbooks := h.books.addArena ht'.layout ha rfl hc
  rw [hfirst] at hbooks
  -- no block of the new arena is in use
  have hnone : ∀ b ∈ (⟨p, 1, some i⟩ : Arena).blocks, b ∉ live := by
    intro b hb hbl
    obtain ⟨a₁, ha₁, hb₁⟩ := h.books.inArena b hbl
    have haa := ht'.layout.arena_unique (mem_insert_of_mem ha₁) haI hb₁ hb
    rw [haa] at ha₁
    exact ha ha₁
  refine wp_mono (wp_takeAndRelease (s := { gotPages { s with
    locked := update s.locked (descAt descs i) true } p 1 with mem := m' }) ht' hi ?_
    (hbooks.state rfl rfl) (update_self ..) h.cnt (update_self ..) (locked_update h.unlocked) ?_) ?_
  · intro a' ha'
    by_cases haa : a' = ⟨p, 1, some i⟩
    · rw [haa, update_self, eq_comm, freeCnt_eq_iff (ht'.layout.valid _ haI) rfl]
      exact hnone
    · rw [update_of_ne haa]
  · intro a' ha' hnot
    rcases mem_insert.1 ha' with haa | ha'
    · rw [haa] at hnot
      exact absurd hblock hnot
    · exact h.inUse a' ha'
  · rintro r s' ⟨rfl, hlive, hlog, ⟨a, ha', hd, he⟩, ⟨F'', hinv⟩, hsur⟩
    refine ⟨_, _, F'', hinv, ?_, .inr ⟨p, 1, hlog⟩, ?_⟩
    · intro a' ha' b hb hbl
      have hnew := hsur a' (mem_insert_of_mem ha') b hb hbl
      exact ⟨hnew.1, fun x hx₁ hx₂ => (hnew.2 x hx₁ hx₂).trans
        (hkept a' ha' b hb (h.books.not_listed h.tables hbl) x hx₁ hx₂)⟩
    · rintro b ⟨⟩
      refine ⟨hlive, a, ha', he, ?_⟩
      rw [Arena.blockSize, hd]
      exact hle

theorem wp_malloc {room : Nat} (h : HeapInv descs s live A c F) (hroom : Grants s size room)
    (hfresh : ∀ cnt p, 1 ≤ cnt → s.pages cnt = some p → FreshPages descs s cnt p) :
    wp (malloc descs size) s (Malloced descs s live A room) := by
  have ht := h.tables
  rw [malloc]
  by_cases h0 : size = 0
  · rw [if_pos h0, wp_pure]
    exact malloced_none h rfl h.unlocked
  rw [if_neg h0]
  rw [wp_bind, wp_get, h.cnt]
  cases hf : (List.range descTotal).find? fun i =>
      decide (size ≤ readLE s.mem 8 (descAt descs i)) with
  | none => exact wp_bigBlock h hroom.2 fun p => hfresh _ p
  | some i =>
    have hi : i < descTotal := List.mem_range.1 (List.mem_of_find?_eq_some hf)
    have hle := List.find?_some hf
    have hle : room ≤ blockSizeOf i := by
      rw [← (ht.fields i hi).1]
      exact hroom.1.trans (of_decide_eq_true hle)
    dsimp only
    rw [wp_bind, wp_lockAcquire]
    refine ⟨h.unlocked i hi, ?_⟩
    have hlock : update s.locked (descAt descs i) true (descAt descs i) = true :=
      update_self ..
    have hothers := locked_update (i := i) h.unlocked
    rw [wp_bind, wp_listEmpty_onMem (s := { s with
      locked := update s.locked (descAt descs i) true }) ht hi]
    cases hc : c i with
    | cons e rest =>
      rw [List.isEmpty_cons, if_neg Bool.false_ne_true, wp_bind, wp_pure, Bool.not_true,
        if_neg Bool.false_ne_true]
      refine wp_mono (wp_takeAndRelease (s := { s with
        locked := update s.locked (descAt descs i) true }) ht hi (fun _ _ => rfl)
        (h.books.state rfl rfl) hc h.cnt hlock hothers fun a ha _ => h.inUse a ha) ?_
      rintro r s' ⟨rfl, hlive, hlog, ⟨a, ha, hd, he⟩, ⟨F', hinv⟩, hsur⟩
      refine ⟨A, _, F', hinv, hsur, .inl hlog, ?_⟩
      rintro b ⟨⟩
      refine ⟨hlive, a, ha, he, ?_⟩
      rw [Arena.blockSize, hd]
      exact hle
    | nil =>
      rw [List.isEmpty_nil, if_pos rfl, wp_bind]
      refine wp_mono (wp_newArena (s := { s with
        locked := update s.locked (descAt descs i) true }) ht hi hc ?_ h.books.used) ?_
      · intro p hp
        obtain ⟨h1, h2, h3, h4, h5⟩ := hfresh 1 p le_rfl hp
        exact ⟨h1, h2, h3, h4, h5⟩
      rintro r s₁ (⟨rfl, rfl⟩ | ⟨rfl, hext⟩)
      · change wp (lockRelease (descAt descs i) >>= fun _ => pure none) _ _
        rw [wp_bind, wp_lockRelease, wp_pure]
        exact ⟨hlock, malloced_none h rfl (unlocked_release hothers)⟩
      · exact wp_takeFromNew h hi hc hext hle

end Malloc

/-! ## `free` -/

section Free

variable {descs : Nat} {s : MallocState} {live : Finset Nat} {A : Finset Arena}
  {c : Nat → List Nat} {F : Family Nat} {n : Arena → Nat} {a : Arena} {i p : Nat} {m m' : Bytes}
  {x : Nat} {f : Nat → UInt8}

/-- Writes inside a block that is on no list keep the tables. -/
theorem tables_patchBlock (ht : Tables descs m A c F n) (ha : a ∈ A) (hp : p ∈ a.blocks)
    (hout : ∀ j < descTotal, p ∉ c j) (hx : p ≤ x) (hk : x + k ≤ p + a.blockSize) :
    Tables descs (patch m x k f) A c F n := by
  refine ht.congr fun y hy => patch_outside ?_
  rcases hy with hy | ⟨a', ha', hy⟩ | ⟨j, hj, b, hb, hy⟩
  · have := ht.layout.block_descs ha hp
    omega
  · have := ht.layout.block_header ha ha' hp
    omega
  · obtain ⟨a', ha', -, hba⟩ := ht.shape.blocks j hj b hb
    have hne : p ≠ b := by
      rintro rfl
      exact hout j hj hb
    have := ht.layout.blocks_apart ha ha' hp hba hne
    have := blockSize_ge (ht.layout.valid a' ha')
    omega

/-- Writes inside a block leave the other blocks alone. -/
theorem survive_patchBlock (live : Finset Nat) (hl : Layout descs A) (ha : a ∈ A)
    (hp : p ∈ a.blocks) (hx : p ≤ x) (hk : x + k ≤ p + a.blockSize) (m : Bytes) :
    Survive A A (live.erase p) m (patch m x k f) := by
  intro a' ha' b hb hbl
  refine ⟨ha', fun y hy₁ hy₂ => patch_outside ?_⟩
  have := hl.blocks_apart ha' ha hb hp (ne_of_mem_erase hbl)
  omega

theorem survive_trans {A₁ A₂ A₃ : Finset Arena} {m₁ m₂ m₃ : Bytes}
    (h : Survive A₁ A₂ live m₁ m₂) (h' : Survive A₂ A₃ live m₂ m₃) : Survive A₁ A₃ live m₁ m₃ := by
  intro a ha b hb hbl
  obtain ⟨ha₂, hsame⟩ := h a ha b hb hbl
  obtain ⟨ha₃, hsame'⟩ := h' a ha₂ b hb hbl
  exact ⟨ha₃, fun x hx₁ hx₂ => (hsame' x hx₁ hx₂).trans (hsame x hx₁ hx₂)⟩

/-- What `free (p)` does to a block of the arena `a`: the heap is in order without the block, the
other blocks in use have not changed, and the pages of the arena are returned if `p` was its last
block in use. -/
def Freed (descs : Nat) (s : MallocState) (live : Finset Nat) (A : Finset Arena) (a : Arena)
    (p : Nat) (s' : MallocState) : Prop :=
  ∃ A' c' F', HeapInv descs s' (live.erase p) A' c' F' ∧
    Survive A A' (live.erase p) s.mem s'.mem ∧
    s'.log = if ∀ b ∈ a.blocks, b ∉ live.erase p then s.log ++ [.freed a.page a.pages] else s.log

/-- The heap without the arena of the last block that was in use. -/
theorem heapInv_removeArena (h : HeapInv descs s live A c F) (ha : a ∈ A) (hp : p ∈ a.blocks)
    (hnone : ∀ b ∈ a.blocks, b ∉ live.erase p) {c' : Nat → List Nat} {F' : Family Nat}
    {locked : Nat → Bool} (hlocked : ∀ i < descTotal, locked (descAt descs i) = false)
    (hc : ∀ j x, x ∉ a.blocks → (x ∈ c' j ↔ x ∈ c j)) (ht : Tables descs m' (A.erase a) c' F' n)
    (hn : ∀ a' ∈ A.erase a, n a' = a'.freeCnt (live.erase p)) :
    HeapInv descs { freedPages s a.page a.pages with mem := m', locked := locked } (live.erase p)
      (A.erase a) c' F' := by
  have hl := h.tables.layout
  have hout : ∀ a' ∈ A.erase a, p ∉ a'.blocks := fun a' ha' hp' =>
    ne_of_mem_erase ha' (hl.arena_unique (mem_of_mem_erase ha') ha hp' hp)
  have hlive : ∀ x, x ∉ a.blocks → (x ∈ live.erase p ↔ x ∈ live) := by
    intro x hx
    rw [mem_erase]
    refine ⟨fun h => h.2, fun h => ⟨?_, h⟩⟩
    rintro rfl
    exact hx hp
  have hbooks := h.books.removeArena hl ha hnone hlive c' hc
  refine ⟨ht.counts fun a' ha' => (hn a' ha').symm, h.cnt, hlocked, hbooks.state rfl rfl, ?_⟩
  intro a' ha'
  obtain ⟨b, hb, hbl⟩ := h.inUse a' (mem_of_mem_erase ha')
  refine ⟨b, hb, mem_erase.2 ⟨?_, hbl⟩⟩
  rintro rfl
  exact hout a' ha' hb

/-- Blocks in use are in arenas that stay. -/
theorem survive_erase (hnone : ∀ b ∈ a.blocks, b ∉ live)
    (hsame : ∀ a' ∈ A.erase a, ∀ b ∈ a'.blocks, b ∈ live → ∀ x, b ≤ x → x < b + a'.blockSize →
      m' x = m x) : Survive A (A.erase a) live m m' := by
  intro a' ha' b hb hbl
  have hne : a' ≠ a := by
    rintro rfl
    exact hnone b hb hbl
  have hmem := mem_erase.2 ⟨hne, ha'⟩
  exact ⟨hmem, hsame a' hmem b hb hbl⟩

theorem wp_freeBig (h : HeapInv descs s live A c F) (ha : a ∈ A) (hp : p ∈ a.blocks)
    (hd : a.desc = none) :
    wp (pallocFreeMultiple a.page a.pages) s fun _ s' => Freed descs s live A a p s' := by
  have hl := h.tables.layout
  have hnone : ∀ b ∈ a.blocks, b ∉ live.erase p := by
    intro b hb
    rw [(mem_blocks_big hd).1 hb, ← (mem_blocks_big hd).1 hp]
    exact notMem_erase p live
  have hlisted : ∀ j < descTotal, ∀ x ∈ c j, x ∉ a.blocks := fun j hj x hx hxa =>
    h.books.not_listed h.tables (h.books.big a ha hd x hxa) j hj hx
  rw [wp_pallocFreeMultiple h.books.used (hl.valid a ha) ha]
  refine ⟨A.erase a, c, F, ?_, ?_, ?_⟩
  · refine heapInv_removeArena h ha hp hnone h.unlocked (fun _ _ _ => Iff.rfl)
      (tables_removeArena h.tables ha hlisted 0xcc) fun a' ha' => freeCnt_congr fun x hx => ?_
    rw [mem_erase, and_iff_right]
    rintro rfl
    exact ne_of_mem_erase ha' (hl.arena_unique (mem_of_mem_erase ha') ha hx hp)
  · refine survive_erase hnone fun a' ha' b hb hbl => ?_
    exact kept_removeArena (c := c) hl ha s.mem 0xcc a' ha' b hb
      (h.books.not_listed h.tables (mem_of_mem_erase hbl))
  · rw [if_pos hnone]
    rfl

/-- The state in which `free` decides whether to dissolve the arena. -/
def Given (descs : Nat) (s : MallocState) (live : Finset Nat) (A : Finset Arena)
    (c : Nat → List Nat) (i p : Nat) (s' : MallocState) : Prop :=
  ∃ m' F', s' = { s with mem := m', locked := update s.locked (descAt descs i) true } ∧
    Tables descs m' A (update c i (p :: c i)) F' (fun a => a.freeCnt (live.erase p)) ∧
    Survive A A (live.erase p) s.mem m'

section

variable (h : HeapInv descs s live A c F) (hi : i < descTotal) (ha : a ∈ A) (hd : a.desc = some i)
  (hp : p ∈ a.blocks)
include h hi ha hd hp

/-- The first part of `free`: the block is filled and put on its free list, and counted. -/
theorem wp_giveBlock (hlive : p ∈ live) :
    wp (do
      memset p 0xcc (← read64 (descAt descs i))
      lockAcquire (descAt descs i)
      onMem (listPushFront (freeList (descAt descs i)) (some p))
      write64 (a.page + 16) ((← read64 (a.page + 16)) + 1)) s fun _ s' =>
        Given descs s live A c i p s' := by
  have hl := h.tables.layout
  have hnot := h.books.not_listed h.tables hlive
  have hsize : a.blockSize = blockSizeOf i := by rw [Arena.blockSize, hd]
  have hfill : Tables descs (fill s.mem p (blockSizeOf i) 0xcc) A c F fun a => a.freeCnt live :=
    tables_patchBlock h.tables ha hp hnot le_rfl (by rw [hsize])
  have hsur : Survive A A (live.erase p) s.mem (fill s.mem p (blockSizeOf i) 0xcc) :=
    survive_patchBlock live hl ha hp le_rfl (by rw [hsize]) s.mem
  rw [wp_bind, wp_read64, wp_bind, wp_memset, wp_bind, wp_lockAcquire, (h.tables.fields i hi).1]
  refine ⟨h.unlocked i hi, ?_⟩
  rw [wp_bind]
  refine wp_mono (wp_pushFront (s := { s with
    mem := fill s.mem p (blockSizeOf i) 0xcc
    locked := update s.locked (descAt descs i) true }) hfill hi ha hd hp (hnot i hi)) ?_
  rintro - s' ⟨m', F', rfl, ht', hkept⟩
  rw [wp_bind, wp_read64, wp_write64]
  refine ⟨_, F', rfl, ?_, ?_⟩
  · have hcount := (ht'.headers a ha).free
    have hle := freeCnt_le (live.erase p) (hl.valid a ha) hd
    have hone := freeCnt_erase hd hp hlive
    have hsmall : blocksPerArena i ≤ 4072 := Nat.div_le_self _ _
    refine (ht'.setFreeCnt ha _).counts (freeCnt_update hl ha hp (fun x hx => ?_) ?_ fun _ _ => rfl)
    · rw [mem_erase, and_iff_right hx]
    · rw [hcount, hone, Nat.mod_eq_of_lt (by omega)]
  · -- the other blocks in use are on no list
    refine survive_trans hsur fun a' ha' b hb hbl => ⟨ha', fun x hx₁ hx₂ => ?_⟩
    have hb' := (h.books.give hl ha hd hp).not_listed ht' hbl
    exact (kept_setFreeCnt (c := update c i (p :: c i)) hl ha m' _ a' ha' b hb hb' x hx₁
      hx₂).trans (hkept a' ha' b hb hb' x hx₁ hx₂)

/-- The second part of `free`. -/
theorem wp_finishFree (hgiven : Given descs s live A c i p s₁) :
    wp (do
      if (← read64 (descAt descs i + 8)) ≤ (← read64 (a.page + 16)) then
        dissolve a.page (descAt descs i)
      lockRelease (descAt descs i)) s₁ fun _ s' => Freed descs s live A a p s' := by
  obtain ⟨m', F', rfl, ht', hsur⟩ := hgiven
  have hl := h.tables.layout
  have hv := hl.valid a ha
  have hlock : update s.locked (descAt descs i) true (descAt descs i) = true := update_self ..
  have hfree := unlocked_release (locked_update (i := i) h.unlocked)
  have hbooks := h.books.give hl ha hd hp
  rw [wp_bind, wp_read64, wp_bind, wp_read64, (ht'.fields i hi).2, (ht'.headers a ha).free]
  by_cases hcount : blocksPerArena i ≤ a.freeCnt (live.erase p)
  · -- no block of the arena is in use: they leave the list, and the page goes back
    have heq := le_antisymm (freeCnt_le _ hv hd) hcount
    have hnone := (freeCnt_eq_iff hv hd).1 heq
    have hall : ∀ b ∈ a.blocks, b ∈ update c i (p :: c i) i := fun b hb =>
      (hbooks.free i a ha hd b hb).2 (hnone b hb)
    rw [if_pos hcount, wp_bind]
    refine wp_mono (wp_dissolve (s := { s with
      mem := m', locked := update s.locked (descAt descs i) true }) ht' hi ha hd hall heq
        h.books.used) ?_
    rintro - s₂ ⟨m₂, F₂, rfl, ht₂, hkept⟩
    rw [wp_lockRelease]
    rw [update_self, update_idem] at ht₂
    have hlists : ∀ j x, x ∉ a.blocks →
        (x ∈ update c i ((p :: c i).filter (· ∉ a.blocks)) j ↔ x ∈ c j) := by
      intro j x hx
      by_cases hji : j = i
      · have hxp : x ≠ p := by
          rintro rfl
          exact hx hp
        rw [hji, update_self, List.mem_filter, List.mem_cons]
        simp [hx, hxp]
      · rw [update_of_ne hji]
    have hinv := heapInv_removeArena h ha hp hnone hfree hlists ht₂ fun _ _ => rfl
    refine ⟨hlock, A.erase a, _, F₂, hinv, ?_, ?_⟩
    · refine survive_trans hsur (survive_erase hnone fun a' ha' b hb hbl => ?_)
      exact hkept a' ha' b hb (hbooks.not_listed ht' hbl)
    · rw [if_pos hnone]
      rfl
  · have hnot : ¬ ∀ b ∈ a.blocks, b ∉ live.erase p := fun hall =>
      hcount ((freeCnt_eq_iff hv hd).2 hall).ge
    rw [if_neg hcount]
    rw [wp_lockRelease]
    refine ⟨hlock, A, _, F', ⟨ht', h.cnt, hfree, hbooks.state rfl rfl, ?_⟩, hsur, ?_⟩
    · intro a' ha'
      by_cases hpa : p ∈ a'.blocks
      · rw [hl.arena_unique ha' ha hpa hp]
        push Not at hnot
        exact hnot
      · obtain ⟨b, hb, hbl⟩ := h.inUse a' ha'
        refine ⟨b, hb, mem_erase.2 ⟨?_, hbl⟩⟩
        rintro rfl
        exact hpa hb
    · rw [if_neg hnot]

end

theorem wp_free (h : HeapInv descs s live A c F) (ha : a ∈ A) (hp : p ∈ a.blocks)
    (hlive : p ∈ live) : wp (free p) s fun _ s' => Freed descs s live A a p s' := by
  have hl := h.tables.layout
  have hv := hl.valid a ha
  have hr := block_range hv hp
  have hdesc := (h.tables.headers a ha).desc
  rw [free, if_neg (by omega)]
  rw [wp_bind, wp_blockToArena h.tables ha hp, wp_bind, wp_read64, hdesc]
  cases hd : a.desc with
  | none =>
    have hzero : a.descAddr descs = 0 := by rw [Arena.descAddr, hd]
    have hcount : readLE s.mem 8 (a.page + 16) = a.pages := by
      rw [(h.tables.headers a ha).free, Arena.freeCnt, hd]
    rw [hzero, if_neg (by simp), wp_bind, wp_read64, hcount]
    exact wp_freeBig h ha hp hd
  | some i =>
    obtain ⟨hi, -⟩ := hv.small i hd
    have haddr : a.descAddr descs = descAt descs i := by rw [Arena.descAddr, hd]
    have hne := descAddr_ne_zero hl hd
    rw [haddr] at hne ⊢
    rw [if_pos hne]
    have hgive := wp_giveBlock h hi ha hd hp hlive
    have hwp := wp_mono hgive fun _ s₁ hg => wp_finishFree h hi ha hd hp hg
    simp only [wp_bind] at hwp ⊢
    exact hwp

end Free

end Pintos.Threads.MallocCalls
