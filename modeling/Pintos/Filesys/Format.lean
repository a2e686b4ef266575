import Pintos.Filesys.Reserve

/-!
# Formatting

`filesys_init` with formatting, from a boot with any content of the disk and of the memory. If it
returns, the free map file and the root directory lie on sectors of their own, the root directory is
empty, and the free map file is open: the state is consistent. A later boot without formatting
restores it.
-/

set_option autoImplicit false

namespace Pintos.Filesys.Format

open Lib Lib.KeyedList Lib.StateExcept Lib.ByteMemory LibKernel
open Filesys.State InodeIo FreeMap Inode
open Filesys.File Directory Operations Layout
open Accounts Handles Invariant FileCalls Reserve

variable {s : Fs} {i0 : Inode} {f0 : File} {capacity cap : Nat} {junk : Nat → BitVec 64}
  {size : Int} {m : Bitmap}

/-- The file system when the kernel boots: nothing is open. -/
structure Booted (s : Fs) : Prop where
  failures : s.failures = []
  capacity : s.capacity < 2 ^ 32
  freeMapFile : s.freeMapFile = none
  files : s.files = []

/-! ## The first free map -/

/-- The free map that `free_map_init` makes. -/
def initialMap (capacity : Nat) (junk : Nat → BitVec 64) : Bitmap :=
  ((Bitmap.create capacity junk).mark freeMapSector).mark rootDirSector

@[simp] theorem initialMap_bitCnt (capacity : Nat) (junk : Nat → BitVec 64) :
    (initialMap capacity junk).bitCnt = capacity :=
  Bitmap.create_bitCnt capacity junk

theorem test_initialMap_map (junk : Nat → BitVec 64) (h : 0 < capacity) :
    (initialMap capacity junk).test freeMapSector = true := by
  apply Bitmap.test_mark_of_test
  rw [Bitmap.test_mark (by rwa [Bitmap.create_bitCnt]), if_pos rfl]

theorem test_initialMap_root (junk : Nat → BitVec 64) (h : 1 < capacity) :
    (initialMap capacity junk).test rootDirSector = true := by
  rw [initialMap, Bitmap.test_mark (by rwa [Bitmap.mark_bitCnt, Bitmap.create_bitCnt]), if_pos rfl]

theorem wp_freeMapInit (hf : s.failures = []) (junk : Nat → BitVec 64) (Q : Unit → Fs → Prop) :
    wp (freeMapInit junk) s Q ↔ Q () { s with freeMap := initialMap s.capacity junk } := by
  simp [freeMapInit, wp_malloc hf, initialMap]

/-- Before the free map file is open, allocation changes the free map in memory only. -/
theorem wp_freeMapAllocate_unopened {cnt : Nat} (hfile : s.freeMapFile = none)
    (hbits : s.freeMap.bitCnt ≤ bitmapError) (Q : Option Nat → Fs → Prop) :
    wp (freeMapAllocate cnt) s Q ↔
      (s.freeMap.scan 0 cnt false = bitmapError → Q none s) ∧
      (s.freeMap.scan 0 cnt false ≠ bitmapError → Q (some (s.freeMap.scan 0 cnt false))
        { s with freeMap := s.freeMap.setMultiple (s.freeMap.scan 0 cnt false) cnt true }) := by
  simp only [freeMapAllocate, Bitmap.scanAndFlip, wp_bind, wp_get, wp_modify,
    Nat.mod_eq_of_lt (Bitmap.scan_lt hbits)]
  by_cases he : s.freeMap.scan 0 cnt false = bitmapError
  · simp [he]
  · simp [he, hfile]

/-! ## Opening and closing the free map file -/

/-- The free map file and its inode are all that is open. -/
structure OnlyMap (s : Fs) (i : Inode) (f : File) : Prop where
  inodes : s.openInodes = [i]
  files : s.files = [f]
  mapFile : s.freeMapFile = some f.ptr
  inode : f.inode = i.ptr
  allows : f.denyWrite = false
  pos : f.pos = 0
  openCnt : i.openCnt = 1
  denyWriteCnt : i.denyWriteCnt = 0
  removed : i.removed = false
  ptr_lt : i.ptr < s.nextPtr
  file_lt : f.ptr < s.nextPtr

/-- The state with the free map file open, from one in which nothing is. -/
def mounted (s : Fs) : Fs :=
  { (loaded s freeMapSector).addFile s.nextPtr with freeMapFile := some (s.nextPtr + 1) }

@[simp] theorem mounted_disk (s : Fs) : (mounted s).disk = s.disk := rfl

theorem wp_openMapFile (hf : s.failures = []) (hno : s.openInodes = [])
    (haddr : Addressable s freeMapSector) (Q : Nat → Fs → Prop) :
    wp openMapFile s Q ↔ Q (s.nextPtr + 1) (mounted s) := by
  have hlookup : lookup Inode.sector s.openInodes freeMapSector = none := by
    rw [hno]
    rfl
  have hf1 : (loaded s freeMapSector).failures = [] := hf
  rw [openMapFile, wp_bind, wp_inodeOpen_new hf hlookup, and_iff_right haddr, wp_bind,
    wp_fileOpen hf1]
  simp only [wp_bind, wp_modify, wp_pure]
  exact Iff.rfl

theorem onlyMap_mounted (hno : s.openInodes = []) (hfiles : s.files = []) :
    OnlyMap (mounted s) (loadInode s freeMapSector) ⟨s.nextPtr + 1, s.nextPtr, 0, false⟩ where
  inodes := by
    show loadInode s freeMapSector :: s.openInodes = _
    rw [hno]
  files := by
    show (⟨s.nextPtr + 1, s.nextPtr, 0, false⟩ : File) :: s.files = _
    rw [hfiles]
  mapFile := rfl
  inode := rfl
  allows := rfl
  pos := rfl
  openCnt := rfl
  denyWriteCnt := rfl
  removed := rfl
  ptr_lt := by
    show s.nextPtr < s.nextPtr + 1 + 1
    omega
  file_lt := Nat.lt_succ_self _

/-- The free map file can be read and written once its inode is on the disk. -/
theorem OnlyMap.mapFile_of_placed (ho : OnlyMap s i0 f0)
    (hp : Placed s.disk m s.capacity freeMapSector)
    (hstart : i0.start = headerStart s.disk freeMapSector)
    (hlength : i0.length = headerLength s.disk freeMapSector)
    (hbytes : headerLength s.disk freeMapSector = byteCnt s.freeMap.bitCnt) : MapFile s i0 where
  opened := by
    refine ⟨f0, ho.mapFile, ?_, ?_⟩
    · rw [ho.files, lookup_cons, if_pos rfl]
    · rw [ho.inodes, lookup_cons, if_pos ho.inode.symm]
  length := hlength.trans hbytes
  onDisk := by
    intro k hk
    rw [hlength] at hk
    have hlt := lt_bytesToSectors (headerLength_lt _ _) hk
    have hmem : i0.start + k ∈ extent s.disk freeMapSector := by
      rw [hstart]
      exact ⟨Nat.le_add_right _ _, Nat.add_lt_add_left hlt _⟩
    obtain ⟨hcap, hlba, -⟩ := hp.used (extent_subset hmem)
    exact ⟨hcap, hlba⟩
  writable := ho.denyWriteCnt

/-- Closing the free map file closes its inode. -/
theorem wp_freeMapClose_iff (hfile : s.freeMapFile = some f0.ptr)
    (hlookup : lookup File.ptr s.files f0.ptr = some f0) (hallows : f0.denyWrite = false)
    (Q : Unit → Fs → Prop) : wp freeMapClose s Q ↔
      wp (inodeClose (some f0.inode)) s fun _ t => Q () (t.dropFile f0.ptr) := by
  rw [freeMapClose, wp_bind, wp_get, hfile, fileClose, wp_bind, fileAllowWrite, wp_bind,
    wp_derefFile hlookup, hallows, if_neg Bool.false_ne_true, wp_pure, wp_bind,
    wp_derefFile hlookup,
    wp_bind]
  simp only [wp_modify]

/-- Closing the free map file leaves nothing open. -/
theorem wp_freeMapClose (ho : OnlyMap s i0 f0) (Q : Unit → Fs → Prop) :
    wp freeMapClose s Q ↔ Q () { s with openInodes := [], files := [] } := by
  have hfile : lookup File.ptr s.files f0.ptr = some f0 := by
    rw [ho.files, lookup_cons, if_pos rfl]
  have hinode : lookup Inode.ptr s.openInodes f0.inode = some i0 := by
    rw [ho.inodes, lookup_cons, if_pos ho.inode.symm]
  have hdrop : (s.dropInode f0.inode).dropFile f0.ptr =
      { s with openInodes := [], files := [] } := by
    have herase : erase Inode.ptr s.openInodes f0.inode = [] := by
      rw [ho.inodes, ho.inode]
      exact erase_cons_new (by simp)
    have herase' : erase File.ptr s.files f0.ptr = [] := by
      rw [ho.files]
      exact erase_cons_new (by simp)
    simp only [Fs.dropInode, Fs.dropFile, herase, herase']
  rw [wp_freeMapClose_iff ho.mapFile hfile ho.allows,
    wp_inodeClose_last hinode ho.openCnt, ho.removed]
  simp [hdrop]

/-- Reading the free map from its file. -/
theorem wp_bitmapRead (hf : s.failures = []) (hm : MapFile s i0) (hpos : 0 < s.freeMap.bitCnt)
    {file : Nat} (hfile : s.freeMapFile = some file) (Q : Bool → Fs → Prop) :
    wp (bitmapRead file) s Q ↔
      Q true { s with freeMap := s.freeMap.ofBytes fun k => s.disk (dataAddr i0 0 + k) } := by
  obtain ⟨f, hptr, hlookup, hinode⟩ := hm.opened
  obtain rfl : f.ptr = file := Option.some.inj (hptr.symm.trans hfile)
  have hcnt : transferCnt i0 (byteCnt s.freeMap.bitCnt) 0 = byteCnt s.freeMap.bitCnt := by
    rw [transferCnt, hm.length]
    omega
  have hbuffer := Bitmap.ofBytes_congr (b := s.freeMap)
    (f := patch s.freeMap.byte 0 (byteCnt s.freeMap.bitCnt) fun j => s.disk (dataAddr i0 0 + j))
    (g := fun k => s.disk (dataAddr i0 0 + k)) fun k hk => patch_inside (by omega) (by omega)
  simp only [bitmapRead, fileReadAt, wp_bind, wp_get, hpos, if_true]
  rw [wp_derefFile hlookup, wp_inodeReadAt hf hinode hm.onDisk (le_refl 0), hcnt]
  simp only [wp_modify, wp_pure, hbuffer, decide_true]

/-! ## Frames for a placed inode -/

section Frame

variable {d d' : Bytes} {m n : Bitmap} {cap h : Nat}

/-- A placed inode keeps its place while its header and the marks stay. -/
theorem placed_congr (hp : Placed d m cap h) (ha : AgreeOn d d' {h})
    (hm : ∀ x, m.test x = true → n.test x = true) :
    Placed d' n cap h ∧ extent d' h = extent d h ∧ headerStart d' h = headerStart d h ∧
      headerLength d' h = headerLength d h := by
  have hh := header_congr fun k hk => ha h rfl k hk
  refine ⟨hp.congr hh fun x hx => ?_, extent_congr hh, hh⟩
  obtain ⟨hcap, hlba, htest⟩ := hp.used hx
  exact ⟨hcap, hlba, hm x htest⟩

/-- The two inodes of an empty file system are consistent. -/
theorem diskInv_empty (hmap : Placed d m cap freeMapSector) (hroot : Placed d m cap rootDirSector)
    (hdisjoint : Disjoint (owned d freeMapSector) (owned d rootDirSector))
    (hmapLength : headerLength d freeMapSector = byteCnt cap)
    (hrootLength : headerLength d rootDirSector = (entrySize * rootEntries : Nat))
    (hempty : ∀ k < rootEntries, entryInUse (rootSlot d k) = false) :
    DiskInv d m cap {freeMapSector} := by
  have hunbound : ∀ k g, ¬ Bound d k g := by
    rintro k g ⟨hk, huse, -⟩
    rw [hempty k hk] at huse
    exact Bool.false_ne_true huse
  have hlive : ∀ g, Live d {freeMapSector} g → g = freeMapSector ∨ g = rootDirSector := by
    rintro g (hg | hg | ⟨k, hb⟩ | hg)
    · exact Or.inl hg
    · exact Or.inr hg
    · exact absurd hb (hunbound k g)
    · exact Or.inl hg
  constructor
  case placed =>
    intro g hg
    rcases hlive g hg with rfl | rfl
    · exact hmap
    · exact hroot
  case disjoint =>
    intro g g' hg hg' hne
    rcases hlive g hg with rfl | rfl <;> rcases hlive g' hg' with rfl | rfl
    · exact absurd rfl hne
    · exact hdisjoint
    · exact hdisjoint.symm
    · exact absurd rfl hne
  case rootLength => exact hrootLength
  case mapLength => exact hmapLength
  case bound_ne => exact fun k g hb => absurd hb (hunbound k g)
  case bound_inj => exact fun k _ g hb => absurd hb (hunbound k g)
  case name_inj =>
    intro k _ name hk _ hfor
    have huse := hfor.1
    rw [hempty k hk] at huse
    exact absurd huse Bool.false_ne_true

end Frame

/-! ## The free map file -/

/-- The free map file is placed and open, and no other inode is on the disk. -/
structure MapReady (s : Fs) (i0 : Inode) (f0 : File) : Prop where
  failures : s.failures = []
  capacity : s.capacity < 2 ^ 32
  mapBits : s.freeMap.bitCnt = s.capacity
  only : OnlyMap s i0 f0
  sector : i0.sector = freeMapSector
  start : i0.start = headerStart s.disk freeMapSector
  length : i0.length = headerLength s.disk freeMapSector
  placed : Placed s.disk s.freeMap s.capacity freeMapSector
  mapLength : headerLength s.disk freeMapSector = byteCnt s.capacity
  rootUsed : s.freeMap.test rootDirSector = true
  rootApart : rootDirSector ∉ owned s.disk freeMapSector

theorem MapReady.mapFile {s : Fs} {i0 : Inode} {f0 : File} (hr : MapReady s i0 f0) : MapFile s i0 :=
  hr.only.mapFile_of_placed hr.placed hr.start hr.length (by rw [hr.mapLength, hr.mapBits])

/-- The free map file has room for a map of all sectors. -/
theorem byteCnt_le (hcap : cap < 2 ^ 32) :
    byteCnt cap ≤ sectorSize * bytesToSectors (byteCnt cap) ∧ (byteCnt cap : Int) < 2 ^ 31 := by
  have hlt : (byteCnt cap : Int) < 2 ^ 31 := by
    simp only [byteCnt, elemCnt, elemBits]
    omega
  have hle := le_bytesToSectors hlt
  exact ⟨by exact_mod_cast hle, hlt⟩

/-- The first allocation leaves out the sectors of the two headers, so the disk has more than
these. -/
theorem initialMap_scan {n : Nat} (hcap : 0 < cap) (hn : 0 < n)
    (hfound : (initialMap cap junk).scan 0 n false ≠ bitmapError) :
    1 < cap ∧ ∀ x, (initialMap cap junk).scan 0 n false ≤ x →
      x < (initialMap cap junk).scan 0 n false + n → x ≠ freeMapSector ∧ x ≠ rootDirSector := by
  obtain ⟨-, hle, hfree⟩ := Bitmap.scan_spec hfound
  rw [initialMap_bitCnt] at hle
  have hmap : ∀ x, (initialMap cap junk).scan 0 n false ≤ x →
      x < (initialMap cap junk).scan 0 n false + n → x ≠ freeMapSector := by
    rintro x h1 h2 rfl
    have htest := hfree _ h1 h2
    rw [test_initialMap_map junk hcap] at htest
    cases htest
  have hpos : 0 < (initialMap cap junk).scan 0 n false := by
    have hne := hmap _ (le_refl _) (by omega)
    simp only [freeMapSector] at hne
    omega
  have hcap' : 1 < cap := by omega
  refine ⟨hcap', fun x h1 h2 => ⟨hmap x h1 h2, ?_⟩⟩
  rintro rfl
  have htest := hfree _ h1 h2
  rw [test_initialMap_root junk hcap'] at htest
  cases htest

/-- The first data sector that is found for the free map file of `size` bytes. -/
def mapStart (s : Fs) (size : Int) : Nat := s.freeMap.scan 0 (bytesToSectors size) false

/-- The state with the data sectors of the free map file taken. -/
def mapAllocated (s : Fs) (size : Int) : Fs :=
  { s with freeMap := s.freeMap.setMultiple (mapStart s size) (bytesToSectors size) true }

/-- The state after `inode_create` for the free map file. -/
def mapCreated (s : Fs) (size : Int) : Fs :=
  writeInode (mapAllocated s size) freeMapSector (mapStart s size) size

/-- What the first `inode_create` leaves, once the file is open. -/
theorem mapReady_mapCreated (hb : Booted s) (hno : s.openInodes = [])
    (hmap : s.freeMap = initialMap s.capacity junk) (hsize : size = byteCnt s.capacity)
    (hfound : s.freeMap.scan 0 (bytesToSectors size) false ≠ bitmapError)
    (haddr : Addressable s freeMapSector)
    (haddrs : ∀ k < bytesToSectors size, Addressable s (mapStart s size + k)) :
    MapReady (mounted (mapCreated s size)) (loadInode (mapCreated s size) freeMapSector)
      ⟨s.nextPtr + 1, s.nextPtr, 0, false⟩ := by
  have hcap : 0 < s.capacity := haddr.1
  obtain ⟨hroom, hlt⟩ := byteCnt_le hb.capacity
  rw [← hsize] at hroom hlt
  have hnonneg : 0 ≤ size := hsize ▸ Int.natCast_nonneg _
  have hn : 0 < bytesToSectors size := by
    have hbytes : 0 < byteCnt s.capacity := by
      simp only [byteCnt, elemCnt, elemBits]
      omega
    by_contra hzero
    rw [Nat.le_zero.1 (not_lt.1 hzero), Nat.mul_zero] at hroom
    omega
  have hscan := hfound
  rw [hmap] at hscan
  obtain ⟨hcap', hoff⟩ := initialMap_scan hcap hn hscan
  rw [← hmap] at hoff
  obtain ⟨-, hrange, -⟩ := Bitmap.scan_spec hfound
  have hbits : s.freeMap.bitCnt = s.capacity := by rw [hmap, initialMap_bitCnt]
  have hle : mapStart s size + bytesToSectors size ≤ s.capacity := hbits ▸ hrange
  have hstart : mapStart s size < 2 ^ 32 :=
    lt_of_le_of_lt (le_trans (Nat.le_add_right _ _) hle) hb.capacity
  have htest : ∀ x, (mapAllocated s size).freeMap.test x =
      if mapStart s size ≤ x ∧ x < mapStart s size + bytesToSectors size then true
      else s.freeMap.test x := fun _ => Bitmap.test_setMultiple hrange
  have hapart : freeMapSector ∉ newData (mapStart s size) size :=
    fun hmem => (hoff _ hmem.1 hmem.2).1 rfl
  have haddrs' : ∀ x ∈ newData (mapStart s size) size, Addressable (mapAllocated s size) x := by
    rintro x ⟨h1, h2⟩
    have hk := haddrs (x - mapStart s size) (Nat.sub_lt_left_of_lt_add h1 h2)
    rw [Nat.add_sub_cancel' h1] at hk
    exact ⟨hk.1, hk.2⟩
  have hused : (mapAllocated s size).freeMap.test freeMapSector = true := by
    rw [htest, hmap, test_initialMap_map junk hcap, ite_self]
  have huseds : ∀ x ∈ newData (mapStart s size) size,
      (mapAllocated s size).freeMap.test x = true := by
    rintro x ⟨h1, h2⟩
    rw [htest, if_pos ⟨h1, h2⟩]
  obtain ⟨hplaced, hextent⟩ :=
    placed_writeInode (s := mapAllocated s size) hnonneg hlt hstart hapart hle
    ⟨haddr.1, haddr.2⟩ haddrs' hused huseds
  exact {
    failures := hb.failures
    capacity := hb.capacity
    mapBits := Bitmap.setMultiple_bitCnt.trans hbits
    only := onlyMap_mounted hno hb.files
    sector := rfl
    start := by simp only [loadInode, mounted_disk]
    length := by simp only [loadInode, mounted_disk]
    placed := hplaced
    mapLength := (header_writeInode hnonneg hlt hstart hapart).2.trans hsize
    rootUsed := by
      show (mapAllocated s size).freeMap.test rootDirSector = true
      rw [htest, hmap, test_initialMap_root junk hcap', ite_self]
    rootApart := by
      rintro (hroot | hmem)
      · exact absurd hroot (by decide)
      · have hdata : rootDirSector ∈ newData (mapStart s size) size := hextent ▸ hmem
        exact (hoff _ hdata.1 hdata.2).2 rfl }

/-- Storing a map with more marks changes the data of the free map file only. -/
theorem MapReady.storeMap (hr : MapReady s i0 f0) (hbits : m.bitCnt = s.freeMap.bitCnt)
    (hmarks : ∀ x, s.freeMap.test x = true → m.test x = true) :
    MapReady (storeMap s i0 m) i0 f0 ∧
      owned (storeMap s i0 m).disk freeMapSector = owned s.disk freeMapSector := by
  have hle : byteCnt m.bitCnt ≤
      sectorSize * bytesToSectors (headerLength s.disk freeMapSector) := by
    rw [hbits, hr.mapBits, hr.mapLength]
    exact (byteCnt_le hr.capacity).1
  have ha := agreeOn_storeMap hr.start hle
  obtain ⟨hplaced, hextent, hstart, hlength⟩ := placed_congr (n := m) hr.placed
    (ha.mono fun x hx => hx ▸ hr.placed.apart) hmarks
  have howned : owned (FreeMap.storeMap s i0 m).disk freeMapSector =
      owned s.disk freeMapSector := by
    rw [owned, owned, hextent]
  refine ⟨?_, howned⟩
  exact {
    failures := hr.failures
    capacity := hr.capacity
    mapBits := hbits.trans hr.mapBits
    only := { hr.only with }
    sector := hr.sector
    start := hr.start.trans hstart.symm
    length := hr.length.trans hlength.symm
    placed := hplaced
    mapLength := hlength.trans hr.mapLength
    rootUsed := hmarks _ hr.rootUsed
    rootApart := howned ▸ hr.rootApart }

/-- **`free_map_create`**, if it returns. -/
theorem wlp_freeMapCreate (hb : Booted s) (hno : s.openInodes = [])
    (hmap : s.freeMap = initialMap s.capacity junk) :
    wlp freeMapCreate s fun _ t => ∃ i0 f0, MapReady t i0 f0 := by
  have hbits : s.freeMap.bitCnt = s.capacity := by rw [hmap, initialMap_bitCnt]
  have herr : s.freeMap.bitCnt ≤ bitmapError := by
    rw [hbits]
    exact Nat.le_pred_of_lt hb.capacity
  rw [freeMapCreate, wlp_bind, wlp_get, wlp_bind, hbits]
  -- the number of data sectors is to stay as it is, not to be computed
  generalize hsize : (byteCnt s.capacity : Int) = size
  refine wlp_inodeCreate hb.failures herr (wp_freeMapAllocate_unopened hb.freeMapFile herr) ?_ ?_
  · intro _
    rw [wlp_bind, wlp_check]
    exact fun hfalse => absurd hfalse Bool.false_ne_true
  · intro _ hfound haddr haddrs
    have hready := mapReady_mapCreated hb hno hmap hsize.symm hfound haddr haddrs
    have hstore := wp_bitmapWrite hready.failures hready.mapFile hready.only.mapFile rfl
    rw [wlp_bind, wlp_check]
    intro _
    rw [wlp_bind]
    apply wlp_of_wp
    refine (wp_openMapFile (s := mapCreated s size) hb.failures hno haddr _).2 ?_
    rw [wlp_bind]
    apply wlp_of_wp
    refine (hstore _).2 ?_
    rw [wlp_check]
    intro _
    exact ⟨_, _, (hready.storeMap rfl fun _ hx => hx).1⟩

/-! ## The root directory -/

/-- The file system on the disk is empty and consistent, and only the free map file is open. -/
structure Formatted (s : Fs) (i0 : Inode) (f0 : File) : Prop where
  failures : s.failures = []
  capacity : s.capacity < 2 ^ 32
  mapBits : s.freeMap.bitCnt = s.capacity
  only : OnlyMap s i0 f0
  disk : DiskInv s.disk s.freeMap s.capacity {freeMapSector}
  stored : ∀ k < byteCnt s.capacity, mapBytes s.disk k = s.freeMap.byte k

/-- A cleared directory has no entry in use. -/
theorem entryInUse_writeInode {h start k : Nat} (hlt : size < 2 ^ 31)
    (hk : (entrySize * (k + 1) : Nat) ≤ size) :
    entryInUse (slot (writeInode s h start size).disk start k) = false := by
  have hle := le_bytesToSectors hlt
  have hbyte : slot (writeInode s h start size).disk start k 19 = 0 := by
    show patch _ (sectorSize * start) (sectorSize * bytesToSectors size) (fun _ => 0)
      (sectorSize * start + entrySize * k + 19) = 0
    rw [patch_inside (by omega) (by simp only [entrySize] at hk ⊢; omega)]
  rw [entryInUse, hbyte]
  rfl

section Root

variable {size : Int} {start : Nat} (hr : MapReady s i0 f0)

include hr

/-- Writing the root directory beside the free map file gives an empty file system. -/
theorem formatted_writeInode (hsize : size = (entrySize * rootEntries : Nat))
    (hstored : ∀ k < byteCnt s.capacity, mapBytes s.disk k = s.freeMap.byte k)
    (hle : start + bytesToSectors size ≤ s.capacity) (hapart : rootDirSector ∉ newData start size)
    (hdata : ∀ x ∈ newData start size, x ∉ owned s.disk freeMapSector)
    (haddr : Addressable s rootDirSector) (haddrs : ∀ x ∈ newData start size, Addressable s x)
    (huseds : ∀ x ∈ newData start size, s.freeMap.test x = true) :
    Formatted (writeInode s rootDirSector start size) i0 f0 := by
  have hstart : start < 2 ^ 32 := lt_of_le_of_lt (le_trans (Nat.le_add_right _ _) hle) hr.capacity
  have hlt : size < 2 ^ 31 := by
    rw [hsize]
    decide
  have hnonneg : 0 ≤ size := hsize ▸ Int.natCast_nonneg _
  obtain ⟨hroot, hextent⟩ :=
    placed_writeInode hnonneg hlt hstart hapart hle haddr haddrs hr.rootUsed huseds
  obtain ⟨hrootStart, hrootLength⟩ := header_writeInode (s := s) hnonneg hlt hstart hapart
  -- the free map file is left alone
  have hkept : AgreeOn s.disk (writeInode s rootDirSector start size).disk
      (owned s.disk freeMapSector) := by
    apply (writeInode_agree s rootDirSector start size).mono
    rintro x hx (rfl | hmem)
    · exact hr.rootApart hx
    · exact hdata x hmem hx
  obtain ⟨hmap, hmapExtent, hmapStart, hmapLength⟩ := placed_congr hr.placed
    (hkept.mono fun x hx => hx ▸ mem_owned) fun _ hx => hx
  have hdisjoint : Disjoint (owned (writeInode s rootDirSector start size).disk freeMapSector)
      (owned (writeInode s rootDirSector start size).disk rootDirSector) := by
    rw [owned, owned, hmapExtent, hextent, Set.disjoint_left]
    rintro x hx (rfl | hmem)
    · exact hr.rootApart hx
    · exact hdata x hmem hx
  have hempty : ∀ k < rootEntries,
      entryInUse (rootSlot (writeInode s rootDirSector start size).disk k) = false := by
    intro k hk
    rw [rootSlot, hrootStart]
    apply entryInUse_writeInode hlt
    rw [hsize]
    exact_mod_cast Nat.mul_le_mul_left entrySize hk
  exact {
    failures := hr.failures
    capacity := hr.capacity
    mapBits := hr.mapBits
    only := { hr.only with }
    disk := diskInv_empty hmap hroot hdisjoint (hmapLength.trans hr.mapLength)
      (hrootLength.trans hsize) hempty
    stored := by
      intro k hk
      have hroom : k < sectorSize * bytesToSectors (headerLength s.disk freeMapSector) := by
        rw [hr.mapLength]
        exact lt_of_lt_of_le hk (byteCnt_le hr.capacity).1
      rw [mapBytes, hmapStart, AgreeOn.data (hkept.mono extent_subset) hroom]
      exact hstored k hk }

/-- The state after `inode_create` for the root directory. -/
theorem formatted_root (hsize : size = (entrySize * rootEntries : Nat))
    (hfound : s.freeMap.scan 0 (bytesToSectors size) false ≠ bitmapError)
    (haddr : Addressable s rootDirSector)
    (haddrs : ∀ k < bytesToSectors size, Addressable s (mapStart s size + k)) :
    Formatted
      (writeInode (allocated s i0 (bytesToSectors size)) rootDirSector (mapStart s size) size)
      i0 f0 := by
  obtain ⟨-, hrange, hfree⟩ := Bitmap.scan_spec hfound
  have hready : MapReady (allocated s i0 (bytesToSectors size)) i0 f0 ∧
      owned (allocated s i0 (bytesToSectors size)).disk freeMapSector =
        owned s.disk freeMapSector :=
    hr.storeMap Bitmap.setMultiple_bitCnt fun x hx => test_allocated_of_used hfound i0 hx
  obtain ⟨hr1, howned⟩ := hready
  -- what is marked before the allocation is not in the data of the root directory
  have hmarked : ∀ x, s.freeMap.test x = true → x ∉ newData (mapStart s size) size := by
    rintro x hx ⟨h1, h2⟩
    rw [hfree x h1 h2] at hx
    exact Bool.false_ne_true hx
  refine formatted_writeInode hr1 hsize ?_ (hr.mapBits ▸ hrange)
    (hmarked _ hr.rootUsed) ?_ haddr ?_ ?_
  · intro k hk
    refine mapBytes_storeMap ?_ ?_
    · have hstart : i0.start =
          headerStart (allocated s i0 (bytesToSectors size)).disk freeMapSector :=
        hr1.start
      rw [dataAddr, hstart]
      rfl
    · rw [Bitmap.setMultiple_bitCnt, hr.mapBits]
      exact hk
  · intro x hmem hx
    rw [howned] at hx
    exact hmarked x (hr.placed.used hx).2.2 hmem
  · rintro x ⟨h1, h2⟩
    have hk := haddrs (x - mapStart s size) (Nat.sub_lt_left_of_lt_add h1 h2)
    rw [Nat.add_sub_cancel' h1] at hk
    exact ⟨hk.1, hk.2⟩
  · rintro x ⟨h1, h2⟩
    rw [test_allocated hfound, if_pos ⟨h1, h2⟩]

/-- `inode_create` for the root directory, if it returns. -/
theorem wlp_createRoot (hsize : size = (entrySize * rootEntries : Nat)) :
    wlp (inodeCreate rootDirSector size) s fun b t => b = true → Formatted t i0 f0 := by
  have herr : s.freeMap.bitCnt ≤ bitmapError := by
    rw [hr.mapBits]
    exact Nat.le_pred_of_lt hr.capacity
  refine wlp_inodeCreate hr.failures herr (wp_freeMapAllocate hr.failures hr.mapFile herr) ?_ ?_
  · exact fun _ hfalse => absurd hfalse Bool.false_ne_true
  · exact fun _ hfound haddr haddrs _ => formatted_root hr hsize hfound haddr haddrs

end Root

/-! ## Opening the free map file -/

/-- The heap with the free map file alone. -/
theorem OnlyMap.heapInv (ho : OnlyMap s i0 f0) (hsector : i0.sector = freeMapSector) :
    HeapInv s.openInodes s.files s.nextPtr s.freeMapFile [] := by
  rw [ho.inodes, ho.files, ho.mapFile]
  have hfileCnt : fileCnt [f0] i0.ptr = 1 := by simp [fileCnt, ho.inode]
  have hdenyCnt : denyCnt [f0] i0.ptr = 0 := by simp [denyCnt, ho.allows]
  refine ⟨⟨?_, ?_, ?_, ?_, ?_, ?_, ?_, ?_⟩, ?_, ?_, ?_, ?_⟩
  · simp [KeyedList.Unique]
  · simp [KeyedList.Unique]
  · simpa using ho.ptr_lt
  · simpa using ho.file_lt
  · simp [ho.openCnt, refCnt, hfileCnt]
  · simp [ho.denyWriteCnt, hdenyCnt]
  · intro p hp
    obtain ⟨f, hf, hfp⟩ := List.countP_pos_iff.1 (show 0 < fileCnt [f0] p from hp)
    rw [List.mem_singleton.1 hf] at hfp
    exact ⟨i0, List.mem_singleton_self i0, ho.inode.symm.trans (of_decide_eq_true hfp)⟩
  · simp [ho.pos]
  · simp [KeyedList.Unique]
  · simp [ho.openCnt]
  · simp [hsector, freeMapSector, rootDirSector]
  · exact ⟨f0, rfl, List.mem_singleton_self f0, ho.allows,
      ⟨i0, List.mem_singleton_self i0, ho.inode.symm, hsector, ho.removed⟩,
      fun g hg _ => List.mem_singleton.1 hg⟩

/-- The state when the free map file is open and read is consistent. -/
theorem inv_readMap {opened : Set Nat} (hfailures : s.failures = [])
    (hcapacity : s.capacity < 2 ^ 32)
    (hno : s.openInodes = []) (hfiles : s.files = []) (hbits : m.bitCnt = s.capacity)
    (hdisk : DiskInv s.disk m s.capacity opened)
    (hread : ∀ x < s.capacity, (m.ofBytes (mapBytes s.disk)).test x = m.test x) :
    Inv { mounted s with freeMap := m.ofBytes (mapBytes s.disk) } [] := by
  have ho := onlyMap_mounted hno hfiles
  have hmem : ∀ i ∈ (mounted s).openInodes, i = loadInode s freeMapSector := by
    intro i hi
    rwa [ho.inodes, List.mem_singleton] at hi
  exact {
    failures := hfailures
    mapBits := hbits
    capacity := hcapacity
    disk := by
      have hmarked : DiskInv s.disk (m.ofBytes (mapBytes s.disk)) s.capacity opened := by
        apply hdisk.of_same ⟨fun _ _ => rfl, fun _ _ => rfl, fun _ _ _ _ => rfl⟩
        intro h hh x hx
        obtain ⟨hcap, hlba, htest⟩ := (hdisk.placed h hh).used hx
        exact ⟨hcap, hlba, (hread x hcap).trans htest⟩
      apply hmarked.reopen
      rintro _ ⟨i, hi, rfl⟩
      rw [hmem i hi]
      exact live_map
    heap := ho.heapInv rfl
    data := by
      intro i hi
      rw [hmem i hi]
      simp only [loadInode, mounted_disk, and_self]
    nameless := by
      intro i hi hremoved
      rw [hmem i hi] at hremoved
      exact absurd hremoved Bool.false_ne_true
    mapStored := fun _ _ => rfl }

/-- `free_map_open` when nothing is open. -/
theorem wp_freeMapOpen {opened : Set Nat} (hfailures : s.failures = []) (hno : s.openInodes = [])
    (hfiles : s.files = []) (hbits : s.freeMap.bitCnt = s.capacity)
    (hdisk : DiskInv s.disk m s.capacity opened) (Q : Unit → Fs → Prop) :
    wp freeMapOpen s Q ↔
      Q () { mounted s with freeMap := s.freeMap.ofBytes (mapBytes s.disk) } := by
  have hp := hdisk.placed _ live_map
  obtain ⟨hcap, hlba, -⟩ := hp.used mem_owned
  have ho := onlyMap_mounted hno hfiles
  have hm := ho.mapFile_of_placed hp (by simp only [loadInode, mounted_disk])
    (by simp only [loadInode, mounted_disk]) (hdisk.mapLength.trans (by rw [← hbits]; rfl))
  have hpos : 0 < s.freeMap.bitCnt := hbits ▸ lt_of_le_of_lt (Nat.zero_le _) hcap
  rw [freeMapOpen, wp_bind, wp_openMapFile hfailures hno ⟨hcap, hlba⟩, wp_bind,
    wp_bitmapRead (s := mounted s) hfailures hm hpos ho.mapFile, wp_check, and_iff_right rfl]
  exact Iff.rfl

/-- **`filesys_init` with formatting**, if it returns, leads to a consistent state. -/
theorem wlp_filesysInit (hb : Booted s) (junk : Nat → BitVec 64) :
    wlp (filesysInit true junk) s fun _ t => Inv t [] := by
  rw [filesysInit, wlp_bind, wlp_modify, wlp_bind]
  apply wlp_of_wp
  refine (wp_freeMapInit (s := { s with openInodes := [] }) hb.failures junk _).2 ?_
  rw [if_pos rfl, doFormat, wlp_bind, wlp_bind]
  refine wlp_mono
    (wlp_freeMapCreate ⟨hb.failures, hb.capacity, hb.freeMapFile, hb.files⟩ rfl rfl) ?_
  rintro _ s1 ⟨i0, f0, hr⟩
  rw [wlp_bind]
  generalize hsize : ((16 * entrySize : Nat) : Int) = size
  have hroot := wlp_createRoot hr (hsize.symm.trans (by rw [Nat.mul_comm]; rfl))
  refine wlp_mono hroot ?_
  intro b s2 hformatted
  rw [wlp_bind, wlp_check]
  intro hb
  apply wlp_of_wp
  refine (wp_freeMapClose (hformatted hb).only _).2 ?_
  have hf := hformatted hb
  apply wlp_of_wp
  refine (wp_freeMapOpen (s := { s2 with openInodes := [], files := [] }) hf.failures
    rfl rfl hf.mapBits
    hf.disk _).2 (inv_readMap hf.failures hf.capacity rfl rfl hf.mapBits hf.disk ?_)
  intro x hx
  rw [← hf.mapBits] at hx
  exact Bitmap.test_ofBytes (fun k hk => hf.stored k (hf.mapBits ▸ hk)) hx

/-- **`filesys_init` without formatting**, at a later boot, finds what is on the disk. -/
theorem wp_filesysInit_again {b : Fs} {held : List Nat} (hs : Inv s held) (hb : Booted b)
    (hdisk : b.disk = s.disk) (hcap : b.capacity = s.capacity) (junk : Nat → BitVec 64) :
    wp (filesysInit false junk) b fun _ t => Inv t [] ∧ t.disk = s.disk ∧
      t.freeMap = s.freeMap.ofBytes (mapBytes s.disk) := by
  have hbits : s.freeMap.bitCnt = b.capacity := hs.mapBits.trans hcap.symm
  have hold : DiskInv b.disk s.freeMap b.capacity (openSectors s) := by
    rw [hdisk, hcap]
    exact hs.disk
  have hmap :=
    Bitmap.ofBytes_eq ((initialMap_bitCnt b.capacity junk).trans hbits.symm) (mapBytes b.disk)
  rw [filesysInit, wp_bind, wp_modify, wp_bind]
  refine (wp_freeMapInit (s := { b with openInodes := [] }) hb.failures junk _).2 ?_
  rw [if_neg Bool.false_ne_true]
  refine (wp_freeMapOpen (s := { b with openInodes := [], freeMap := initialMap b.capacity junk })
    hb.failures rfl hb.files (initialMap_bitCnt ..) hold _).2 ?_
  dsimp only
  rw [hmap, ← hdisk]
  refine ⟨inv_readMap hb.failures hb.capacity rfl hb.files hbits hold ?_, rfl, rfl⟩
  dsimp only
  rw [hdisk, hcap]
  exact hs.mapStored

end Pintos.Filesys.Format
