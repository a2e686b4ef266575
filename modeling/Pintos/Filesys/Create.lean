import Pintos.Filesys.Reserve

/-!
# Creating files

`filesys_create` from a consistent state. It takes a header sector, then the data sectors, writes
the new inode there, and names it in the root directory. A creation that fails gives the header
sector back and keeps the data sectors.
-/

set_option autoImplicit false

namespace Pintos.Filesys.Create

open Lib.KeyedList Lib.StateExcept LibKernel
open Filesys.State FreeMap Inode
open Directory Operations Layout
open Invariant FileCalls Reserve

variable {s t u : Fs} {held : List Nat} {i0 r : Inode} {h cnt : Nat} {size : Int}
  {Q : Bool → Fs → Prop}

/-! ## The steps of `filesys_create` -/

/-- The free map after the header sector is taken. -/
def headerMap (m : Bitmap) : Bitmap := m.setMultiple (m.scan 0 1 false) 1 true

/-- There is no free sector for the header, or after it no free run of sectors for the data. -/
def NoRoom (m : Bitmap) (size : Int) : Prop :=
  m.scan 0 1 false = bitmapError ∨ (headerMap m).scan 0 (bytesToSectors size) false = bitmapError

/-- The header sector that `filesys_create` finds. -/
def headerSector (s : Fs) : Nat := s.freeMap.scan 0 1 false

/-- The first data sector that `inode_create` finds. -/
def dataStart (s : Fs) (size : Int) : Nat :=
  (headerMap s.freeMap).scan 0 (bytesToSectors size) false

/-- The state after `inode_create`. -/
def created (s : Fs) (i0 : Inode) (size : Int) : Fs :=
  writeInode (allocated (allocated s i0 1) i0 (bytesToSectors size)) (headerSector s)
    (dataStart s size) size

/-- The new inode is created and consistent with the rest, but not named yet. -/
structure Created (s : Fs) (i0 : Inode) (size : Int) (held : List Nat) : Prop where
  inv : Inv (created s i0 size) held
  mapInode : MapInode (created s i0 size) i0
  beside : Beside s (created s i0 size)
  header : Spare (created s i0 size) {headerSector s}
  reserved : Reserved (created s i0 size).disk (created s i0 size).freeMap
    (created s i0 size).capacity (openSectors (created s i0 size)) (headerSector s)
  found : s.freeMap.scan 0 1 false ≠ bitmapError
  foundData : (headerMap s.freeMap).scan 0 (bytesToSectors size) false ≠ bitmapError
  size_nonneg : 0 ≤ size

section Steps

variable (hs : Inv s held) (hm : MapInode s i0)

include hs hm

theorem beside_allocated (cnt : Nat) : Beside s (allocated s i0 cnt) :=
  beside_storeMap hs hm.mem hm.sector Bitmap.setMultiple_bitCnt

omit hs in
theorem mapInode_allocated (cnt : Nat) : MapInode (allocated s i0 cnt) i0 :=
  hm.storeMap Bitmap.setMultiple_bitCnt

theorem spare_header (hfound : s.freeMap.scan 0 1 false ≠ bitmapError) :
    Spare (allocated s i0 1) {headerSector s} := by
  have hone : Set.Ico (s.freeMap.scan 0 1 false) (s.freeMap.scan 0 1 false + 1) =
      {headerSector s} := by
    ext x
    rw [Set.mem_Ico, Set.mem_singleton_iff, headerSector]
    omega
  exact hone ▸ spare_allocated hfound hs hm

theorem created_of_found (hsize : 0 ≤ size) (hlt : size < 2 ^ 31)
    (hfound : s.freeMap.scan 0 1 false ≠ bitmapError)
    (hdata : (headerMap s.freeMap).scan 0 (bytesToSectors size) false ≠ bitmapError)
    (haddr : Addressable s (headerSector s))
    (haddrs : ∀ k < bytesToSectors size, Addressable s (dataStart s size + k)) :
    Created s i0 size held := by
  have hs1 := inv_allocated hfound hs hm
  have hm1 := mapInode_allocated hm 1
  have hs2 := inv_allocated hdata hs1 hm1
  have hh1 := spare_header hs hm hfound
  have hb1 := beside_allocated hs hm 1
  have hb2 := beside_allocated hs1 hm1 (bytesToSectors size)
  -- the header sector is marked when the data sectors are looked for
  have hh2 : Spare (allocated (allocated s i0 1) i0 (bytesToSectors size)) {headerSector s} :=
    hh1.beside hb2 rfl fun x hx => test_allocated_of_used hdata i0 (hh1.used x hx)
  have hd2 := spare_allocated hdata hs1 hm1
  have hapart : headerSector s ∉ newData (dataStart s size) size := by
    intro hmem
    have hfree := (Bitmap.scan_spec hdata).2.2 _ hmem.1 hmem.2
    rw [show (headerMap s.freeMap).test (headerSector s) = true from hh1.used _ rfl] at hfree
    cases hfree
  have hfits : dataStart s size + bytesToSectors size ≤ s.capacity := by
    rw [← hs.mapBits]
    have hle := (Bitmap.scan_spec hdata).2.1
    rwa [headerMap, Bitmap.setMultiple_bitCnt] at hle
  have haddrs' : ∀ x ∈ newData (dataStart s size) size, Addressable s x := by
    intro x hx
    have hk := haddrs (x - dataStart s size) (by have := hx.2; have := hx.1; omega)
    rwa [Nat.add_sub_cancel' hx.1] at hk
  have hb3 := beside_writeInode hs2 hh2 hd2
  exact {
    inv := inv_writeInode hs2 hh2 hd2
    mapInode := (mapInode_allocated hm1 _).writeInode _ _ _
    beside := (hb1.trans hb2).trans hb3
    header := hh2.beside hb3 rfl hh2.used
    reserved := reserved_writeInode hs2 hh2 hd2 hsize hlt hapart hfits haddr haddrs'
    found := hfound
    foundData := hdata
    size_nonneg := hsize }

/-- `inode_create` for the new file, if it returns. -/
theorem wlp_createInode (hlt : size < 2 ^ 31) (hfound : s.freeMap.scan 0 1 false ≠ bitmapError)
    (hfail : (headerMap s.freeMap).scan 0 (bytesToSectors size) false = bitmapError →
      Q false (allocated s i0 1)) (hcreated : Created s i0 size held → Q true (created s i0 size)) :
    wlp (inodeCreate (headerSector s) size) (allocated s i0 1) Q := by
  have hs1 := inv_allocated hfound hs hm
  have hm1 := mapInode_allocated hm 1
  have hbits : (allocated s i0 1).freeMap.bitCnt ≤ bitmapError := by
    rw [hs1.mapBits]
    exact Nat.le_pred_of_lt hs1.capacity
  refine wlp_inodeCreate hs1.failures hbits
    (wp_freeMapAllocate hs1.failures hm1.file hbits) hfail ?_
  intro hsize hdata haddr haddrs
  exact hcreated (created_of_found hs hm hsize hlt hfound hdata haddr haddrs)

/-- The steps of `filesys_create` on the open root directory, if they return. -/
theorem wlp_createSteps (hr : r ∈ s.openInodes) (hsector : r.sector = rootDirSector)
    (hlt : size < 2 ^ 31) {name : CString} {Q : Bool × Nat → Fs → Prop}
    (hfull : s.freeMap.scan 0 1 false = bitmapError → Q (false, 0) s)
    (hfullData : s.freeMap.scan 0 1 false ≠ bitmapError →
      (headerMap s.freeMap).scan 0 (bytesToSectors size) false = bitmapError →
      Q (false, headerSector s) (allocated s i0 1))
    (hrefused : Created s i0 size held → Q (false, headerSector s) (created s i0 size))
    (hadded : Created s i0 size held → ∀ k < rootEntries, ∀ e, entrySector e = headerSector s →
      EntryFor e name → (∀ j < rootEntries, ¬ EntryFor (rootSlot (created s i0 size).disk j) name) →
      entryInUse (rootSlot (created s i0 size).disk k) = false →
      Q (true, headerSector s)
        { created s i0 size with disk := writeEntry (created s i0 size).disk k e }) :
    wlp (createSteps (some ⟨r.ptr, 0⟩) name size) s Q := by
  have hbits : s.freeMap.bitCnt ≤ bitmapError := by
    rw [hs.mapBits]
    exact Nat.le_pred_of_lt hs.capacity
  rw [createSteps, wlp_bind]
  apply wlp_of_wp
  refine (wp_freeMapAllocate hs.failures hm.file hbits _).2 ⟨?_, ?_⟩
  · intro herr
    dsimp only
    rw [wlp_pure]
    exact hfull herr
  · intro hfound
    rw [wlp_bind]
    refine wlp_createInode hs hm hlt hfound ?_ ?_
    · intro hdata
      rw [if_neg Bool.false_ne_true, wlp_pure]
      exact hfullData hfound hdata
    · intro hc
      have hrc : r ∈ (created s i0 size).openInodes := hc.beside.inodes ▸ hr
      obtain ⟨hd, hdeny, hstart⟩ := dirFile_root hc.inv hrc hsector 0
      have hlba : headerSector s < 2 ^ 32 :=
        lt_of_lt_of_le (hc.header.lt _ rfl) (le_of_lt hc.inv.capacity)
      rw [if_pos rfl, wlp_bind]
      apply wlp_of_wp
      apply wp_dirAdd hd hdeny
      · intro _
        rw [wlp_pure]
        exact hrefused hc
      · intro k hk _ hname hfree hunused
        rw [wlp_pure, hstart]
        rw [hstart] at hfree hunused
        exact hadded hc k hk _ (entrySector_newEntry hlba)
          ⟨entryInUse_newEntry hname, entryName_newEntry hname⟩ hfree hunused

end Steps

/-! ## Giving the header sector back -/

/-- The state after the header sector is released. -/
def released (s : Fs) (i0 : Inode) (h : Nat) : Fs :=
  storeMap s i0 (s.freeMap.setMultiple h 1 false)

section Released

variable (hs : Inv s held) (hm : MapInode s i0) (hS : Spare s {h})

include hs hm hS

omit hm in
theorem test_released (i0 : Inode) (x : Nat) :
    (released s i0 h).freeMap.test x = if x = h then false else s.freeMap.test x :=
  Bitmap.test_setMultiple_one (hs.mapBits ▸ hS.lt h rfl)

theorem wp_releaseHeader (Q : Unit → Fs → Prop) :
    wp (freeMapRelease h 1) s Q ↔ Q () (released s i0 h) := by
  apply wp_freeMapRelease hs.failures hm.file
  · rw [hs.mapBits]
    exact hS.lt h rfl
  · intro x h1 h2
    obtain rfl : x = h := by omega
    exact hS.used x rfl

theorem inv_released : Inv (released s i0 h) held := by
  apply hs.storeMap hm.mem hm.sector Bitmap.setMultiple_bitCnt
  intro g hg x hx
  obtain ⟨hcap, hlba, htest⟩ := (hs.disk.placed g hg).used hx
  have hne : x ≠ h := fun e => hS.unowned g hg h rfl (e ▸ hx)
  refine ⟨hcap, hlba, ?_⟩
  have hreleased := test_released hs hS i0 x
  rw [if_neg hne] at hreleased
  exact hreleased.trans htest

omit hS in
theorem beside_released : Beside s (released s i0 h) :=
  beside_storeMap hs hm.mem hm.sector Bitmap.setMultiple_bitCnt

end Released

/-! ## The free map after `filesys_create` -/

theorem bytesToSectors_eq_zero (hsize : 0 ≤ size) (hlt : size < 2 ^ 31) :
    bytesToSectors size = 0 ↔ size = 0 := by
  constructor
  · by_contra hne
    have hpos := lt_bytesToSectors hlt (k := 0) (by push_cast; omega)
    omega
  · rintro rfl
    decide

section Bits

variable (hfound : s.freeMap.scan 0 1 false ≠ bitmapError)

include hfound

/-- The header that is taken was free. -/
theorem test_headerSector : s.freeMap.test (headerSector s) = false :=
  (Bitmap.scan_spec hfound).2.2 _ (le_refl _) (Nat.lt_succ_self _)

theorem test_headerMap (x : Nat) :
    (headerMap s.freeMap).test x = if x = headerSector s then true else s.freeMap.test x :=
  Bitmap.test_setMultiple_one (Bitmap.scan_spec hfound).2.1

/-- The bits after the new inode is created. -/
theorem test_created
    (hdata : (headerMap s.freeMap).scan 0 (bytesToSectors size) false ≠ bitmapError)
    (i0 : Inode) (x : Nat) : (created s i0 size).freeMap.test x =
      if dataStart s size ≤ x ∧ x < dataStart s size + bytesToSectors size then true
      else if x = headerSector s then true else s.freeMap.test x := by
  rw [← test_headerMap hfound]
  exact test_allocated (s := allocated s i0 1) hdata i0 x

end Bits

/-- The header of the new inode holds the place of its data and its size. -/
theorem header_created (hc : Created s i0 size held) (hlt : size < 2 ^ 31) :
    headerStart (created s i0 size).disk (headerSector s) = dataStart s size ∧
      headerLength (created s i0 size).disk (headerSector s) = size := by
  -- the header is marked when the data sectors are looked for
  have hapart : headerSector s ∉ newData (dataStart s size) size := by
    intro hmem
    have hfree := (Bitmap.scan_spec hc.foundData).2.2 _ hmem.1 hmem.2
    rw [test_headerMap hc.found, if_pos rfl] at hfree
    cases hfree
  have hstart : dataStart s size < 2 ^ 32 := by
    have hle := (Bitmap.scan_spec hc.foundData).2.1
    have hbits : (headerMap s.freeMap).bitCnt = (created s i0 size).freeMap.bitCnt := by
      show _ = ((headerMap s.freeMap).setMultiple _ _ true).bitCnt
      rw [Bitmap.setMultiple_bitCnt]
    have hcap := hc.inv.capacity
    rw [hbits, hc.inv.mapBits] at hle
    exact lt_of_le_of_lt (Nat.le_of_add_right_le hle) hcap
  exact header_writeInode hc.size_nonneg hlt hstart hapart

/-- Giving the header back restores the free map when no data sectors were taken. -/
theorem released_header (hs : Inv s held) (hm : MapInode s i0)
    (hfound : s.freeMap.scan 0 1 false ≠ bitmapError) (x : Nat) :
    (released (allocated s i0 1) i0 (headerSector s)).freeMap.test x = s.freeMap.test x := by
  rw [test_released (inv_allocated hfound hs hm) (spare_header hs hm hfound)]
  by_cases hx : x = headerSector s
  · rw [if_pos hx, hx, test_headerSector hfound]
  · rw [if_neg hx]
    exact (test_headerMap hfound x).trans (if_neg hx)

/-- The header is given back and the data sectors are not. -/
theorem released_created (hc : Created s i0 size held) (x : Nat) :
    (released (created s i0 size) i0 (headerSector s)).freeMap.test x =
      if dataStart s size ≤ x ∧ x < dataStart s size + bytesToSectors size then true
      else s.freeMap.test x := by
  rw [test_released hc.inv hc.header, test_created hc.found hc.foundData]
  by_cases hx : x = headerSector s
  · -- the header is marked when the data sectors are found, so it is none of them
    have hnot : ¬ (dataStart s size ≤ x ∧ x < dataStart s size + bytesToSectors size) := by
      rintro ⟨h1, h2⟩
      have hfree := (Bitmap.scan_spec hc.foundData).2.2 x h1 h2
      rw [test_headerMap hc.found, if_pos hx] at hfree
      cases hfree
    rw [if_pos hx, if_neg hnot, hx, test_headerSector hc.found]
  · rw [if_neg hx, if_neg hx]

/-- The data sectors that stay marked were free before. -/
theorem released_created_iff (hc : Created s i0 size held) (hlt : size < 2 ^ 31) :
    (∀ x, (released (created s i0 size) i0 (headerSector s)).freeMap.test x = s.freeMap.test x) ↔
      size = 0 := by
  rw [← bytesToSectors_eq_zero hc.size_nonneg hlt]
  constructor
  · intro hsame
    by_contra hne
    have hfree := (Bitmap.scan_spec hc.foundData).2.2 (dataStart s size) (le_refl _)
      (Nat.lt_add_of_pos_right (pos_of_ne_zero hne))
    have hx : dataStart s size ≠ headerSector s := by
      intro e
      rw [test_headerMap hc.found, if_pos e] at hfree
      cases hfree
    rw [test_headerMap hc.found, if_neg hx, ← hsame, released_created hc,
      if_pos ⟨le_refl _, Nat.lt_add_of_pos_right (pos_of_ne_zero hne)⟩] at hfree
    cases hfree
  · intro hzero x
    rw [released_created hc, if_neg]
    omega

/-! ## What `filesys_create` does -/

/-- The change leaves the heap, and the data of all files, as they are. -/
structure Untouched (s t : Fs) : Prop where
  inodes : t.openInodes = s.openInodes
  files : t.files = s.files
  mapFile : t.freeMapFile = s.freeMapFile
  next : s.nextPtr ≤ t.nextPtr
  data : ∀ h, LiveIn s h → h ≠ freeMapSector → h ≠ rootDirSector →
    AgreeOn s.disk t.disk (owned s.disk h)

/-- What `filesys_create` does, `b` being its result. -/
structure CreateEffect (s t : Fs) (b : Bool) (size : Int) : Prop where
  untouched : Untouched s t
  marks : ∀ x, s.freeMap.test x = true → t.freeMap.test x = true
  slots : b = false → ∀ k < rootEntries, ∀ j < entrySize, rootSlot t.disk k j = rootSlot s.disk k j
  restored : b = false →
    ((∀ x, t.freeMap.test x = s.freeMap.test x) ↔ size = 0 ∨ NoRoom s.freeMap size)

/-- The state in which the new inode is named by entry `k`. -/
def named (s : Fs) (i0 : Inode) (size : Int) (k : Nat) (e : Nat → UInt8) : Fs :=
  Fs.dropInode { created (rootOpened s) i0 size with
    disk := writeEntry (created (rootOpened s) i0 size).disk k e } (rootInode s).ptr

section Effect

variable (hs : Inv s [])

include hs

/-- Closing the root directory restores the table of inodes. -/
theorem untouched_dropRoot (hinodes : u.openInodes = (rootOpened s).openInodes)
    (hfiles : u.files = s.files) (hmap : u.freeMapFile = s.freeMapFile)
    (hnext : s.nextPtr ≤ u.nextPtr)
    (hdata : ∀ h, LiveIn s h → h ≠ freeMapSector → h ≠ rootDirSector →
      AgreeOn s.disk u.disk (owned s.disk h)) : Untouched s (u.dropInode (rootInode s).ptr) where
  inodes := by
    show erase Inode.ptr u.openInodes (rootInode s).ptr = s.openInodes
    rw [hinodes]
    exact erase_cons_new fun j hj => ne_of_lt (hs.heap.inode_lt j hj)
  files := hfiles
  mapFile := hmap
  next := hnext
  data := hdata

omit hs in
theorem live_rootOpened (hh : LiveIn s h) : LiveIn (rootOpened s) h := by
  rcases hh with rfl | rfl | hb | ⟨j, hj, rfl⟩
  · exact live_map
  · exact live_root
  · exact .inr (.inr (.inl hb))
  · exact live_opened ⟨j, List.mem_cons_of_mem _ hj, rfl⟩

/-- A refused creation that has left the live inodes alone. -/
theorem effect_refused (hb : Beside (rootOpened s) u) (hfiles : u.files = s.files)
    (hmap : u.freeMapFile = s.freeMapFile) (hnext : s.nextPtr ≤ u.nextPtr)
    (hmarks : ∀ x, s.freeMap.test x = true → u.freeMap.test x = true)
    (hrestored : (∀ x, u.freeMap.test x = s.freeMap.test x) ↔ size = 0 ∨ NoRoom s.freeMap size) :
    CreateEffect s (u.dropInode (rootInode s).ptr) false size where
  untouched := untouched_dropRoot hs hb.inodes hfiles hmap hnext
    fun h hh hne _ => hb.data h (live_rootOpened hh) hne
  marks := hmarks
  slots := fun _ => hb.layout.slot
  restored := fun _ => hrestored

/-- The creation in which the new inode is named. -/
theorem effect_named (hc : Created (rootOpened s) i0 size [(rootInode s).ptr]) {k : Nat}
    (hk : k < rootEntries) (e : Nat → UInt8) : CreateEffect s (named s i0 size k e) true size where
  untouched := by
    refine untouched_dropRoot hs ?_ rfl rfl (Nat.le_succ _) ?_
    · exact hc.beside.inodes
    intro h hh hmap hroot x hx j hj
    have hh1 := live_rootOpened hh
    have hnot : x ∉ extent (created (rootOpened s) i0 size).disk rootDirSector := by
      rw [hc.beside.layout.extent_eq live_root]
      exact fun hmem => Set.disjoint_left.1 (hs.disk.disjoint _ _ hh live_root hroot) hx
        (extent_subset hmem)
    have hentry := hc.inv.disk.writeEntry_agree hk e x hnot j hj
    exact hentry.trans (hc.beside.data h hh1 hmap x hx j hj)
  marks := by
    intro x hx
    have htest := test_created hc.found hc.foundData i0 x
    rw [rootOpened_freeMap, hx, ite_self, ite_self] at htest
    exact htest
  slots := fun hfalse => absurd hfalse.symm Bool.false_ne_true
  restored := fun hfalse => absurd hfalse.symm Bool.false_ne_true

omit hs in
/-- Closing the root directory ends `filesys_create`. -/
theorem wp_finish (hu : Inv u [(rootInode s).ptr]) (hr : rootInode s ∈ u.openInodes) {b : Bool}
    (hQ : Inv (u.dropInode (rootInode s).ptr) [] → Q b (u.dropInode (rootInode s).ptr)) :
    wp (do
        dirClose (some ⟨(rootInode s).ptr, 0⟩)
        return b) u Q := by
  have hcount : List.count (rootInode s).ptr [(rootInode s).ptr] = 1 := List.count_singleton_self
  have ht := inv_dropRoot hu hr rfl hcount
  rw [List.erase_cons_head] at ht
  rw [wp_bind, wp_dirClose hu hr rfl hcount, wp_pure]
  exact hQ ht

omit hs in
/-- The cleanup of a refused creation gives the header sector back. -/
theorem wp_cleanup (hu : Inv u [(rootInode s).ptr]) (hm : MapInode u i0) (hS : Spare u {h})
    (hr : rootInode s ∈ u.openInodes) (hQ : Inv ((released u i0 h).dropInode (rootInode s).ptr) [] →
      Q false ((released u i0 h).dropInode (rootInode s).ptr)) :
    wp (if false = false ∧ h ≠ 0 then do
        freeMapRelease h 1
        dirClose (some ⟨(rootInode s).ptr, 0⟩)
        return false
      else do
        dirClose (some ⟨(rootInode s).ptr, 0⟩)
        return false) u Q := by
  have hne : h ≠ 0 := by
    rintro rfl
    exact hS.unowned freeMapSector live_map 0 rfl mem_owned
  rw [if_pos ⟨rfl, hne⟩, wp_bind, wp_releaseHeader hu hm hS]
  exact wp_finish (inv_released hu hm hS) hr hQ

/-- `filesys_create`, if it returns: the creation is refused, or the new inode is named. -/
theorem wlp_filesysCreate_cases (hlt : size < 2 ^ 31) (name : CString)
    (hrefused : ∀ t, Inv t [] → CreateEffect s t false size → Q false t)
    (hnamed : ∀ i0, Created (rootOpened s) i0 size [(rootInode s).ptr] → ∀ k < rootEntries, ∀ e,
      entrySector e = headerSector (rootOpened s) → EntryFor e name →
      (∀ j < rootEntries, ¬ EntryFor (rootSlot (created (rootOpened s) i0 size).disk j) name) →
      entryInUse (rootSlot (created (rootOpened s) i0 size).disk k) = false →
      Inv (named s i0 size k e) [] → CreateEffect s (named s i0 size k e) true size →
      Q true (named s i0 size k e)) :
    wlp (filesysCreate name size) s Q := by
  have hs1 := inv_rootOpened hs
  obtain ⟨i0, hm⟩ := exists_mapInode hs1
  rw [filesysCreate, wlp_bind]
  apply wlp_of_wp
  rw [wp_dirOpenRoot hs, wlp_bind]
  refine wlp_createSteps hs1 hm mem_rootOpened rfl hlt ?_ ?_ ?_ ?_
  · -- no sector for the header: nothing is done
    intro hfull
    have hroom : NoRoom s.freeMap size := .inl hfull
    have heffect := effect_refused hs (Beside.refl (rootOpened s)) rfl rfl (Nat.le_succ _)
      (fun _ hx => hx) (iff_of_true (fun _ => rfl) (.inr hroom))
    dsimp only
    exact wlp_of_wp (wp_finish hs1 mem_rootOpened fun ht => hrefused _ ht heffect)
  · -- no room for the data: the header is given back
    intro hfound hfull
    have hroom : NoRoom s.freeMap size := .inr hfull
    have hsame := released_header hs1 hm hfound
    have hs2 := inv_allocated hfound hs1 hm
    have hm2 := mapInode_allocated hm 1
    have heffect := effect_refused hs
      ((beside_allocated hs1 hm 1).trans (beside_released hs2 hm2)) rfl rfl (Nat.le_succ _)
      (fun x hx => (hsame x).trans hx) (iff_of_true hsame (.inr hroom))
    exact wlp_of_wp (wp_cleanup hs2 hm2 (spare_header hs1 hm hfound) mem_rootOpened
      fun ht => hrefused _ ht heffect)
  · -- no entry for the name: the header is given back and the data sectors are not
    intro hc
    have hroom : ¬ NoRoom s.freeMap size := not_or.2 ⟨hc.found, hc.foundData⟩
    have hrestored := (released_created_iff hc hlt).trans (or_iff_left hroom).symm
    have hmarks : ∀ x, s.freeMap.test x = true →
        (released (created (rootOpened s) i0 size) i0 (headerSector (rootOpened s))).freeMap.test
          x = true := by
      intro x hx
      rw [released_created hc, rootOpened_freeMap, hx, ite_self]
    have heffect := effect_refused hs (hc.beside.trans (beside_released hc.inv hc.mapInode)) rfl rfl
      (Nat.le_succ _) hmarks hrestored
    exact wlp_of_wp (wp_cleanup hc.inv hc.mapInode hc.header mem_rootOpened
      fun ht => hrefused _ ht heffect)
  · -- the entry is written
    intro hc k hk e hsector hentry hfree hunused
    have ht := hc.inv.bind hk hc.reserved hsector hentry.2 hfree
    dsimp only
    exact wlp_of_wp (wp_finish ht mem_rootOpened fun ht =>
      hnamed i0 hc k hk e hsector hentry hfree hunused ht (effect_named hs hc hk e))

/-- **`filesys_create`**, if it returns. -/
theorem wlp_filesysCreate (hlt : size < 2 ^ 31) (name : CString) :
    wlp (filesysCreate name size) s fun b t => Inv t [] ∧ CreateEffect s t b size :=
  wlp_filesysCreate_cases hs hlt name (fun _ ht he => ⟨ht, he⟩)
    fun _ _ _ _ _ _ _ _ _ ht he => ⟨ht, he⟩

end Effect

end Pintos.Filesys.Create
