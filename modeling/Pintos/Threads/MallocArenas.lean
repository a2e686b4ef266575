import Pintos.Threads.Malloc

/-!
# Arenas in memory

An arena is a page that is divided into blocks of one size, or a number of pages that hold one big
block. `Layout` says where arenas may be: they overlap neither each other nor the array of
descriptors. From it follows which bytes belong to whom: blocks do not overlap each other, nor
arena headers, nor descriptors.

`Tables` collects what the memory holds: the fields of the descriptors, the arena headers, and the
free lists, whose nodes are blocks. The lemmas below say which writes it survives.
-/

set_option autoImplicit false

namespace Pintos.Threads.MallocArenas

open Function Lib.ByteMemory
open LibKernel.List LibKernel.ListFamily LibKernel.ListMemory
open Vaddr Malloc

/-! ## Blocks -/

/-- The number of descriptors. -/
def descTotal : Nat := 7

/-- The block size of a descriptor. -/
def blockSizeOf (i : Nat) : Nat := 16 * 2 ^ i

/-- The number of blocks of a descriptor that fit in a page. -/
def blocksPerArena (i : Nat) : Nat := (pgSize - sizeofArena) / blockSizeOf i

/-- An arena of a descriptor, or a big block. -/
structure Arena where
  page : Nat
  pages : Nat
  desc : Option Nat
  deriving DecidableEq

namespace Arena

/-- The end of the pages of an arena. -/
def stop (a : Arena) : Nat := a.page + pgSize * a.pages

/-- Usable bytes per block. -/
def blockSize (a : Arena) : Nat :=
  match a.desc with
  | some i => blockSizeOf i
  | none => pgSize * a.pages - sizeofArena

/-- Number of blocks. -/
def blockCnt (a : Arena) : Nat :=
  match a.desc with
  | some i => blocksPerArena i
  | none => 1

/-- The address of a block. -/
def block (a : Arena) (k : Nat) : Nat := a.page + sizeofArena + k * a.blockSize

/-- The addresses of all blocks. -/
def blocks (a : Arena) : Finset Nat := (Finset.range a.blockCnt).image a.block

/-- `desc` of `struct arena`. -/
def descAddr (a : Arena) (descs : Nat) : Nat :=
  match a.desc with
  | some i => descAt descs i
  | none => 0

/-- `free_cnt` of `struct arena`, when the blocks `live` are in use. -/
def freeCnt (a : Arena) (live : Finset Nat) : Nat :=
  match a.desc with
  | some _ => (a.blocks \ live).card
  | none => a.pages

end Arena

/-- An arena at a place where one can be. -/
structure Valid (descs : Nat) (a : Arena) : Prop where
  aligned : a.page % 4096 = 0
  pos : 0 < a.page
  nonempty : 1 ≤ a.pages
  top : a.stop ≤ 2 ^ 64
  small : ∀ i, a.desc = some i → i < descTotal ∧ a.pages = 1
  outside : a.stop ≤ descs ∨ descs + 960 ≤ a.page

section Blocks

variable {descs : Nat} {a : Arena} {b : Nat}

theorem stop_eq (a : Arena) : a.stop = a.page + 4096 * a.pages := rfl

theorem blockSizeOf_ge (i : Nat) : 16 ≤ blockSizeOf i :=
  Nat.le_mul_of_pos_right 16 (Nat.two_pow_pos i)

theorem blockSizeOf_le {i : Nat} (hi : i < descTotal) : blockSizeOf i ≤ 1024 :=
  Nat.mul_le_mul_left 16 (Nat.pow_le_pow_right (by norm_num) (Nat.lt_succ_iff.1 hi) : 2 ^ i ≤ 2 ^ 6)

/-- A big block is the only one of its arena. -/
theorem mem_blocks_big (hd : a.desc = none) {b : Nat} : b ∈ a.blocks ↔ b = a.page + 24 := by
  simp [Arena.blocks, Arena.blockCnt, Arena.block, hd, sizeofArena]

theorem blockSize_ge (hv : Valid descs a) : 16 ≤ a.blockSize := by
  unfold Arena.blockSize
  cases a.desc with
  | some i => exact blockSizeOf_ge i
  | none =>
    have := hv.nonempty
    simp only [pgSize, sizeofArena]
    omega

/-- All blocks fit behind the header. -/
theorem blocks_fit (hv : Valid descs a) : 24 + a.blockCnt * a.blockSize ≤ 4096 * a.pages := by
  unfold Arena.blockCnt Arena.blockSize
  cases hd : a.desc with
  | some i =>
    have hle : blocksPerArena i * blockSizeOf i ≤ 4072 := Nat.div_mul_le_self _ _
    rw [(hv.small i hd).2]
    change 24 + blocksPerArena i * blockSizeOf i ≤ _
    omega
  | none =>
    have := hv.nonempty
    simp only [pgSize, sizeofArena]
    omega

/-- The blocks lie between the header and the end of the arena. -/
theorem block_range (hv : Valid descs a) (hb : b ∈ a.blocks) :
    a.page + 24 ≤ b ∧ b + a.blockSize ≤ a.stop ∧ b < a.page + 4096 := by
  obtain ⟨k, hk, rfl⟩ := Finset.mem_image.1 hb
  have hk := Finset.mem_range.1 hk
  have hfit := blocks_fit hv
  have hsize := blockSize_ge hv
  have hmul : (k + 1) * a.blockSize ≤ a.blockCnt * a.blockSize := Nat.mul_le_mul_right _ hk
  rw [Nat.add_mul, Nat.one_mul] at hmul
  have hstop := stop_eq a
  simp only [Arena.block, sizeofArena]
  refine ⟨by omega, by omega, ?_⟩
  cases hd : a.desc with
  | some i =>
    rw [(hv.small i hd).2] at hfit
    omega
  | none =>
    have hcnt : a.blockCnt = 1 := by
      rw [Arena.blockCnt, hd]
    have hk0 : k = 0 := by omega
    rw [hk0]
    omega

theorem block_injective (hv : Valid descs a) : Injective a.block := by
  intro k k' h
  have hsize := blockSize_ge hv
  exact Nat.eq_of_mul_eq_mul_right (by omega) (Nat.add_left_cancel h)

theorem card_blocks (hv : Valid descs a) : a.blocks.card = a.blockCnt := by
  rw [Arena.blocks, Finset.card_image_of_injective _ (block_injective hv), Finset.card_range]

/-- Two blocks of an arena do not overlap. -/
theorem block_apart {b' : Nat} (hb : b ∈ a.blocks) (hb' : b' ∈ a.blocks) (hne : b ≠ b') :
    b + a.blockSize ≤ b' ∨ b' + a.blockSize ≤ b := by
  obtain ⟨k, -, rfl⟩ := Finset.mem_image.1 hb
  obtain ⟨k', -, rfl⟩ := Finset.mem_image.1 hb'
  simp only [Arena.block]
  rcases Nat.lt_trichotomy k k' with hlt | rfl | hlt
  · have := Nat.mul_le_mul_right a.blockSize hlt
    rw [Nat.succ_mul] at this
    omega
  · exact absurd rfl hne
  · have := Nat.mul_le_mul_right a.blockSize hlt
    rw [Nat.succ_mul] at this
    omega

theorem lt_of_mem_blocks (hv : Valid descs a) (hb : b ∈ a.blocks) : b < 2 ^ 64 := by
  have := block_range hv hb
  have := blockSize_ge hv
  have := hv.top
  omega

/-- A block is in the first page of its arena. -/
theorem pgRoundDown_block (hv : Valid descs a) (hb : b ∈ a.blocks) :
    pgRoundDown b = a.page := by
  have := block_range hv hb
  have := hv.aligned
  rw [pgRoundDown_eq (lt_of_mem_blocks hv hb)]
  omega

theorem pgOfs_block (hv : Valid descs a) (hb : b ∈ a.blocks) :
    pgOfs b = b - a.page := by
  have := block_range hv hb
  have := hv.aligned
  rw [pgOfs_eq]
  omega

end Blocks

/-! ## Layout -/

/-- The descriptors and the arenas do not overlap. -/
structure Layout (descs : Nat) (A : Finset Arena) : Prop where
  pos : 0 < descs
  top : descs + 960 ≤ 2 ^ 64
  valid : ∀ a ∈ A, Valid descs a
  apart : ∀ a ∈ A, ∀ b ∈ A, a ≠ b → a.stop ≤ b.page ∨ b.stop ≤ a.page

section LayoutLemmas

variable {descs : Nat} {A : Finset Arena} {a a' : Arena} {b b' : Nat}

section

variable (hl : Layout descs A) (ha : a ∈ A)
include hl ha

theorem Layout.blocks_apart (ha' : a' ∈ A) (hb : b ∈ a.blocks) (hb' : b' ∈ a'.blocks)
    (hne : b ≠ b') :
    b + a.blockSize ≤ b' ∨ b' + a'.blockSize ≤ b := by
  by_cases haa : a = a'
  · subst haa
    exact block_apart hb hb' hne
  · have hr := block_range (hl.valid a ha) hb
    have hr' := block_range (hl.valid a' ha') hb'
    have := hl.apart a ha a' ha' haa
    omega

/-- A block belongs to one arena. -/
theorem Layout.arena_unique (ha' : a' ∈ A) (hb : b ∈ a.blocks) (hb' : b ∈ a'.blocks) : a = a' := by
  by_contra hne
  have hr := block_range (hl.valid a ha) hb
  have hr' := block_range (hl.valid a' ha') hb'
  have := hl.apart a ha a' ha' hne
  omega

theorem Layout.desc_unique {i j : Nat} (ha' : a' ∈ A) (hb : b ∈ a.blocks) (hb' : b ∈ a'.blocks)
    (hd : a.desc = some i) (hd' : a'.desc = some j) : j = i := by
  rw [← hl.arena_unique ha ha' hb hb', hd] at hd'
  exact (Option.some.inj hd').symm

theorem Layout.block_header (ha' : a' ∈ A) (hb : b ∈ a.blocks) :
    b + a.blockSize ≤ a'.page ∨ a'.page + 24 ≤ b := by
  have hr := block_range (hl.valid a ha) hb
  by_cases haa : a = a'
  · subst haa
    exact .inr hr.1
  · have hstop := stop_eq a'
    have := hl.apart a ha a' ha' haa
    omega

theorem Layout.block_descs (hb : b ∈ a.blocks) :
    b + a.blockSize ≤ descs ∨ descs + 960 ≤ b := by
  have hr := block_range (hl.valid a ha) hb
  have := (hl.valid a ha).outside
  omega

theorem Layout.header_descs :
    a.page + 24 ≤ descs ∨ descs + 960 ≤ a.page := by
  have hv := (hl.valid a ha).nonempty
  have hstop := stop_eq a
  have := (hl.valid a ha).outside
  omega

theorem Layout.headers_apart (ha' : a' ∈ A) (hne : a ≠ a') :
    a.page + 24 ≤ a'.page ∨ a'.page + 24 ≤ a.page := by
  have hv := (hl.valid a ha).nonempty
  have hv' := (hl.valid a' ha').nonempty
  have hstop := stop_eq a
  have hstop' := stop_eq a'
  have := hl.apart a ha a' ha' hne
  omega

end

theorem Layout.subset (hl : Layout descs A) {A' : Finset Arena} (hsub : A' ⊆ A) :
    Layout descs A' :=
  ⟨hl.pos, hl.top, fun a ha => hl.valid a (hsub ha),
    fun a ha b hb => hl.apart a (hsub ha) b (hsub hb)⟩

end LayoutLemmas

/-! ## What the memory holds -/

/-- The lists are the free lists of the descriptors, and their elements are blocks. -/
structure Shape (descs : Nat) (A : Finset Arena) (c : Nat → List Nat) (F : Family Nat) : Prop where
  lists : ∀ i < descTotal, F (freeList (descAt descs i)) = some (c i)
  only : ∀ l xs, F l = some xs → ∃ i < descTotal, l = freeList (descAt descs i)
  blocks : ∀ i < descTotal, ∀ x ∈ c i, ∃ a ∈ A, a.desc = some i ∧ x ∈ a.blocks

/-- The first two fields of the descriptors. -/
def Fields (descs : Nat) (m : Bytes) : Prop :=
  ∀ i < descTotal, readLE m 8 (descAt descs i) = blockSizeOf i ∧
    readLE m 8 (descAt descs i + 8) = blocksPerArena i

/-- The header of an arena. -/
structure Header (descs : Nat) (m : Bytes) (a : Arena) (freeCnt : Nat) : Prop where
  magic : readLE m 4 a.page = arenaMagic
  desc : readLE m 8 (a.page + 8) = a.descAddr descs
  free : readLE m 8 (a.page + 16) = freeCnt

/-- Descriptors, arena headers with the counts `n`, and free lists with the contents `c`. -/
structure Tables (descs : Nat) (m : Bytes) (A : Finset Arena) (c : Nat → List Nat) (F : Family Nat)
    (n : Arena → Nat) : Prop where
  layout : Layout descs A
  shape : Shape descs A c F
  wf : WellFormed (linksAt m) F
  fields : Fields descs m
  headers : ∀ a ∈ A, Header descs m a (n a)

section TablesLemmas

variable {descs : Nat} {m m' : Bytes} {A : Finset Arena} {c : Nat → List Nat} {F : Family Nat}
  {n : Arena → Nat} {i : Nat} {xs : List Nat}

theorem descAt_eq (descs i : Nat) : descAt descs i = descs + 96 * i := rfl

theorem mem_nodes_freeList {x : Nat} (hx : x ∈ nodes (freeList (descAt descs i)) xs) :
    x = descAt descs i + 16 ∨ x = descAt descs i + 32 ∨ x ∈ xs := by
  simp only [nodes, freeList, List.mem_append, List.mem_cons, List.not_mem_nil, or_false] at hx
  tauto

/-- A node in use is a header element of a free list or a block. -/
theorem Shape.node (hs : Shape descs A c F) {x : Nat} (hx : ¬ Free F x) :
    (∃ j < descTotal, x = descAt descs j + 16 ∨ x = descAt descs j + 32) ∨
      ∃ j < descTotal, x ∈ c j := by
  simp only [Free, not_forall, not_not] at hx
  obtain ⟨l, xs, hl, hmem⟩ := hx
  obtain ⟨j, hj, rfl⟩ := hs.only l xs hl
  rw [hs.lists j hj, Option.some.injEq] at hl
  subst hl
  rcases mem_nodes_freeList hmem with h | h | h
  · exact .inl ⟨j, hj, .inl h⟩
  · exact .inl ⟨j, hj, .inr h⟩
  · exact .inr ⟨j, hj, h⟩

theorem Shape.spaced (hs : Shape descs A c F) (hl : Layout descs A) : Spaced F := by
  have hdesc : ∀ {x : Nat}, (∃ j < descTotal, x = descAt descs j + 16 ∨ x = descAt descs j + 32) →
      ∃ j < 7, x = descs + 96 * j + 16 ∨ x = descs + 96 * j + 32 := by
    rintro x ⟨j, hj, hx⟩
    exact ⟨j, hj, hx⟩
  have hblock : ∀ {x : Nat}, (∃ j < descTotal, x ∈ c j) → ∃ a ∈ A, x ∈ a.blocks := by
    rintro x ⟨j, hj, hx⟩
    obtain ⟨a, ha, -, hxa⟩ := hs.blocks j hj x hx
    exact ⟨a, ha, hxa⟩
  have htop := hl.top
  refine ⟨?_, ?_⟩
  · intro x hx
    rw [sizeofListElem]
    rcases hs.node hx with hx | hx
    · obtain ⟨j, hj, hxj⟩ := hdesc hx
      omega
    · obtain ⟨a, ha, hxa⟩ := hblock hx
      have hr := block_range (hl.valid a ha) hxa
      have hs := blockSize_ge (hl.valid a ha)
      have ht := (hl.valid a ha).top
      omega
  · intro x y hx hy hne
    rw [sizeofListElem]
    rcases hs.node hx with hx | hx <;> rcases hs.node hy with hy | hy
    · obtain ⟨j, hj, hxj⟩ := hdesc hx
      obtain ⟨k, hk, hyk⟩ := hdesc hy
      omega
    · obtain ⟨j, hj, hxj⟩ := hdesc hx
      obtain ⟨a, ha, hya⟩ := hblock hy
      have hd := hl.block_descs ha hya
      omega
    · obtain ⟨j, hj, hxj⟩ := hdesc hy
      obtain ⟨a, ha, hxa⟩ := hblock hx
      have hd := hl.block_descs ha hxa
      omega
    · obtain ⟨a, ha, hxa⟩ := hblock hx
      obtain ⟨a', ha', hya⟩ := hblock hy
      have hap := hl.blocks_apart ha ha' hxa hya hne
      have hs := blockSize_ge (hl.valid a ha)
      have hs' := blockSize_ge (hl.valid a' ha')
      omega

/-- Bytes that descriptors, headers and free lists are stored in. -/
def Meta (descs : Nat) (A : Finset Arena) (c : Nat → List Nat) (x : Nat) : Prop :=
  (descs ≤ x ∧ x < descs + 960) ∨ (∃ a ∈ A, a.page ≤ x ∧ x < a.page + 24) ∨
    ∃ j < descTotal, ∃ y ∈ c j, y ≤ x ∧ x < y + 16

theorem Header.congr {a : Arena} {k : Nat} (hh : Header descs m a k)
    (hsame : ∀ x, a.page ≤ x → x < a.page + 24 → m' x = m x) : Header descs m' a k where
  magic := by
    rw [← hh.magic]
    exact readLE_congr fun i hi => hsame _ (by omega) (by omega)
  desc := by
    rw [← hh.desc]
    exact readLE_congr fun i hi => hsame _ (by omega) (by omega)
  free := by
    rw [← hh.free]
    exact readLE_congr fun i hi => hsame _ (by omega) (by omega)

theorem Fields.congr (hf : Fields descs m)
    (hsame : ∀ j < descTotal, ∀ x, descAt descs j ≤ x → x < descAt descs j + 16 → m' x = m x) :
    Fields descs m' := by
  intro j hj
  obtain ⟨hsize, hcnt⟩ := hf j hj
  rw [← hsize, ← hcnt]
  exact ⟨readLE_congr fun i hi => hsame j hj _ (by omega) (by omega),
    readLE_congr fun i hi => hsame j hj _ (by omega) (by omega)⟩

/-- Writes elsewhere keep the tables. -/
theorem Tables.congr (ht : Tables descs m A c F n) (hsame : ∀ x, Meta descs A c x → m' x = m x) :
    Tables descs m' A c F n where
  layout := ht.layout
  shape := ht.shape
  wf := by
    refine ht.wf.frame fun x hx => linksAt_congr fun y hy₁ hy₂ => hsame y ?_
    rw [sizeofListElem] at hy₂
    rcases ht.shape.node hx with ⟨j, hj, hx⟩ | ⟨j, hj, hx⟩
    · rw [descAt_eq] at hx
      rw [descTotal] at hj
      exact .inl ⟨by omega, by omega⟩
    · exact .inr (.inr ⟨j, hj, x, hx, hy₁, hy₂⟩)
  fields := by
    refine ht.fields.congr fun j hj x hx₁ hx₂ => hsame x (.inl ?_)
    rw [descAt_eq] at hx₁ hx₂
    rw [descTotal] at hj
    omega
  headers := fun a ha => (ht.headers a ha).congr fun x hx₁ hx₂ =>
    hsame x (.inr (.inl ⟨a, ha, hx₁, hx₂⟩))

/-- The counts matter for the arenas that there are. -/
theorem Tables.counts (ht : Tables descs m A c F n) {n' : Arena → Nat}
    (hn : ∀ a ∈ A, n' a = n a) : Tables descs m A c F n' :=
  ⟨ht.layout, ht.shape, ht.wf, ht.fields, fun a ha => (hn a ha).symm ▸ ht.headers a ha⟩

/-- Setting `free_cnt` of an arena. -/
theorem Tables.setFreeCnt (ht : Tables descs m A c F n) {a : Arena} (ha : a ∈ A) (v : Nat) :
    Tables descs (writeLE m 8 (a.page + 16) v) A c F (update n a (v % 2 ^ 64)) where
  layout := ht.layout
  shape := ht.shape
  wf := by
    refine ht.wf.frame fun x hx => linksAt_congr fun y hy₁ hy₂ => patch_outside ?_
    rw [sizeofListElem] at hy₂
    rcases ht.shape.node hx with ⟨j, hj, hx⟩ | ⟨j, hj, hx⟩
    · have := ht.layout.header_descs ha
      rw [descAt_eq] at hx
      rw [descTotal] at hj
      omega
    · obtain ⟨a', ha', -, hxa⟩ := ht.shape.blocks j hj x hx
      have := ht.layout.block_header ha' ha hxa
      omega
  fields := by
    refine ht.fields.congr fun j hj x hx₁ hx₂ => patch_outside ?_
    have := ht.layout.header_descs ha
    rw [descAt_eq] at hx₁ hx₂
    rw [descTotal] at hj
    omega
  headers := by
    intro a' ha'
    by_cases haa : a' = a
    · subst haa
      have hh := ht.headers a' ha'
      refine ⟨?_, ?_, ?_⟩
      · rw [readLE_writeLE_outside (by omega), hh.magic]
      · rw [readLE_writeLE_outside (by omega), hh.desc]
      · rw [readLE_writeLE]
        norm_num
    · rw [update_of_ne haa]
      refine (ht.headers a' ha').congr fun x hx₁ hx₂ => patch_outside ?_
      have := ht.layout.headers_apart ha' ha haa
      omega

/-- No byte of a block that is on no free list has changed. -/
def Kept (A : Finset Arena) (c : Nat → List Nat) (m m' : Bytes) : Prop :=
  ∀ a ∈ A, ∀ b ∈ a.blocks, (∀ j < descTotal, b ∉ c j) → ∀ x, b ≤ x → x < b + a.blockSize →
    m' x = m x

theorem freeList_ne {i j : Nat} (hij : j ≠ i) :
    freeList (descAt descs j) ≠ freeList (descAt descs i) := by
  intro h
  have hhead := congrArg KList.head h
  simp only [freeList, descAt_eq] at hhead
  omega

theorem Shape.put (hs : Shape descs A c F) (hi : i < descTotal)
    (hsub : ∀ x ∈ xs, ∃ a ∈ A, a.desc = some i ∧ x ∈ a.blocks) :
    Shape descs A (update c i xs) (F.put (freeList (descAt descs i)) xs) where
  lists := by
    intro j hj
    by_cases hij : j = i
    · subst hij
      rw [put_self, update_self]
    · rw [put_of_ne _ _ (freeList_ne hij), update_of_ne hij, hs.lists j hj]
  only := by
    intro l ys hl
    by_cases hli : l = freeList (descAt descs i)
    · exact ⟨i, hi, hli⟩
    · rw [put_of_ne _ _ hli] at hl
      exact hs.only l ys hl
  blocks := by
    intro j hj x hx
    by_cases hij : j = i
    · subst hij
      rw [update_self] at hx
      exact hsub x hx
    · rw [update_of_ne hij] at hx
      exact hs.blocks j hj x hx

/-- The free list of a descriptor after a list function. -/
theorem Tables.stored (ht : Tables descs m A c F n) (hi : i < descTotal)
    (hsub : ∀ x ∈ xs, ∃ a ∈ A, a.desc = some i ∧ x ∈ a.blocks)
    (hst : Stored m m' (F.put (freeList (descAt descs i)) xs)
      (nodes (freeList (descAt descs i)) xs)) :
    Tables descs m' A (update c i xs) (F.put (freeList (descAt descs i)) xs) n ∧
      Kept A (update c i xs) m m' := by
  have hidx : i < 7 := hi
  -- which bytes the nodes of the list are apart from
  have hnodes : ∀ x, (∀ y, y = descAt descs i + 16 ∨ y = descAt descs i + 32 → x < y ∨ y + 16 ≤ x) →
      (∀ y ∈ xs, x < y ∨ y + 16 ≤ x) → m' x = m x := by
    intro x hhead hxs
    refine hst.frame x fun y hy => ?_
    rcases mem_nodes_freeList hy with hy | hy | hy
    · exact hhead y (.inl hy)
    · exact hhead y (.inr hy)
    · exact hxs y hy
  refine ⟨⟨ht.layout, ht.shape.put hi hsub, hst.wf, ?_, ?_⟩, ?_⟩
  · refine ht.fields.congr fun j hj x hx₁ hx₂ => ?_
    have hjdx : j < 7 := hj
    rw [descAt_eq] at hx₁ hx₂
    refine hnodes x (fun y hy => ?_) fun y hy => ?_
    · rw [descAt_eq] at hy
      omega
    · obtain ⟨a, ha, -, hya⟩ := hsub y hy
      have := ht.layout.block_descs ha hya
      have := blockSize_ge (ht.layout.valid a ha)
      omega
  · intro a' ha'
    refine (ht.headers a' ha').congr fun x hx₁ hx₂ => hnodes x (fun y hy => ?_) fun y hy => ?_
    · have := ht.layout.header_descs ha'
      rw [descAt_eq] at hy
      omega
    · obtain ⟨a, ha, -, hya⟩ := hsub y hy
      have := ht.layout.block_header ha ha' hya
      have := blockSize_ge (ht.layout.valid a ha)
      omega
  · intro a' ha' b hb hout x hx₁ hx₂
    refine hnodes x (fun y hy => ?_) fun y hy => ?_
    · have := ht.layout.block_descs ha' hb
      rw [descAt_eq] at hy
      omega
    · obtain ⟨a, ha, -, hya⟩ := hsub y hy
      have hne : y ≠ b := by
        rintro rfl
        exact hout i hi (by rw [update_self]; exact hy)
      have := ht.layout.blocks_apart ha ha' hya hb hne
      have := blockSize_ge (ht.layout.valid a ha)
      omega

end TablesLemmas

end Pintos.Threads.MallocArenas
