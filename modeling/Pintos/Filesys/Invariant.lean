import Pintos.Filesys.Layout
import Pintos.Filesys.Handles

/-!
# The invariant of the file system

The disk, the free map, the open inodes and the files together. `Inv s held` holds in every state
between two steps of the file system code, `held` being the references to inodes that this code
holds; between two calls there are none. Each change that the code makes to the state has one lemma
here.
-/

set_option autoImplicit false

namespace Pintos.Filesys.Invariant

open Lib.KeyedList Lib.ByteMemory LibKernel
open Filesys.State InodeIo FreeMap Inode
open Directory Layout Accounts Handles

/-- The header sectors of the open inodes. -/
def openSectors (s : Fs) : Set Nat := { h | ∃ i ∈ s.openInodes, i.sector = h }

/-- The header sectors of the live inodes. -/
def LiveIn (s : Fs) (h : Nat) : Prop := Live s.disk (openSectors s) h

/-- The bytes of the free map file. -/
def mapBytes (d : Bytes) : Nat → UInt8 := fun k => d (sectorSize * headerStart d freeMapSector + k)

variable {s : Fs} {i : Inode} {m : Bitmap} {k h : Nat}

/-- Storing a free map writes the data of the free map file only. -/
theorem agreeOn_storeMap (hstart : i.start = headerStart s.disk freeMapSector)
    (hle : byteCnt m.bitCnt ≤ sectorSize * bytesToSectors (headerLength s.disk freeMapSector)) :
    AgreeOn s.disk (storeMap s i m).disk (extent s.disk freeMapSector)ᶜ := by
  have haddr : dataAddr i 0 = sectorSize * headerStart s.disk freeMapSector + 0 := by
    rw [dataAddr, hstart]
    rfl
  show AgreeOn s.disk (patch s.disk (dataAddr i 0) (byteCnt m.bitCnt) m.byte) _
  rw [haddr]
  apply agreeOn_patch (c := bytesToSectors (headerLength s.disk freeMapSector))
  · rwa [Nat.zero_add]
  · intro x hx
    by_contra hin
    exact hx ⟨by omega, by omega⟩

/-- Storing the free map writes its bytes to the free map file. -/
theorem mapBytes_storeMap
    (haddr : dataAddr i 0 = sectorSize * headerStart (storeMap s i m).disk freeMapSector)
    (hk : k < byteCnt m.bitCnt) : mapBytes (storeMap s i m).disk k = m.byte k := by
  show patch s.disk (dataAddr i 0) (byteCnt m.bitCnt) m.byte
    (sectorSize * headerStart (storeMap s i m).disk freeMapSector + k) = m.byte k
  rw [← haddr, patch_inside (by omega) (by omega), Nat.add_sub_cancel_left]

/-- The state of the file system is consistent. The free map file is read back as the free map. -/
structure Inv (s : Fs) (held : List Nat) : Prop where
  failures : s.failures = []
  mapBits : s.freeMap.bitCnt = s.capacity
  capacity : s.capacity < 2 ^ 32
  disk : DiskInv s.disk s.freeMap s.capacity (openSectors s)
  heap : HeapInv s.openInodes s.files s.nextPtr s.freeMapFile held
  data : ∀ i ∈ s.openInodes, i.start = headerStart s.disk i.sector ∧
    i.length = headerLength s.disk i.sector
  nameless : ∀ i ∈ s.openInodes, i.removed = true → Nameless s.disk i.sector
  mapStored : ∀ x < s.capacity, (s.freeMap.ofBytes (mapBytes s.disk)).test x = s.freeMap.test x

/-- An inode on the heap describes a live inode of the disk. -/
structure Described (s : Fs) (i : Inode) : Prop where
  live : LiveIn s i.sector
  start : i.start = headerStart s.disk i.sector
  length : i.length = headerLength s.disk i.sector
  nameless : i.removed = true → Nameless s.disk i.sector

/-- What is described depends on the place of the inode, and on whether it is removed. -/
theorem Described.of_eq {j : Inode} (h : Described s i) (hsector : j.sector = i.sector)
    (hstart : j.start = i.start) (hlength : j.length = i.length)
    (hnameless : j.removed = true → Nameless s.disk i.sector) : Described s j := by
  refine ⟨?_, ?_, ?_, ?_⟩
  · rw [hsector]
    exact h.live
  · rw [hstart, hsector]
    exact h.start
  · rw [hlength, hsector]
    exact h.length
  · rw [hsector]
    exact hnameless

theorem described_loadInode (hlive : LiveIn s h) : Described s (loadInode s h) where
  live := hlive
  start := by simp only [loadInode]
  length := by simp only [loadInode]
  nameless := fun hremoved => absurd hremoved Bool.false_ne_true

section Facts

variable {s : Fs} {held : List Nat} {i : Inode}

theorem live_of_open (hi : i ∈ s.openInodes) : LiveIn s i.sector := live_opened ⟨i, hi, rfl⟩

namespace Inv

variable (hs : Inv s held) {f : File} {d : Bytes} {e : Nat → UInt8}

include hs

/-- The data of an open inode can be accessed. -/
theorem dataOnDisk (hi : i ∈ s.openInodes) : DataOnDisk s i := by
  intro k hk
  obtain ⟨hstart, hlen⟩ := hs.data i hi
  have hlt : k < bytesToSectors (headerLength s.disk i.sector) := by
    rw [hlen] at hk
    exact lt_bytesToSectors (headerLength_lt _ _) hk
  have hmem : i.start + k ∈ extent s.disk i.sector := by
    rw [hstart]
    exact ⟨Nat.le_add_right _ _, Nat.add_lt_add_left hlt _⟩
  obtain ⟨hcap, hlba, -⟩ := (hs.disk.placed _ (live_of_open hi)).used (extent_subset hmem)
  exact ⟨hcap, hlba⟩

/-- A transfer stays within the data sectors. -/
theorem transfer_le (hi : i ∈ s.openInodes) {size offset : Int} (h0 : 0 ≤ offset)
    (hcnt : transferCnt i size offset ≠ 0) :
    offset.toNat + transferCnt i size offset ≤
      sectorSize * bytesToSectors (headerLength s.disk i.sector) := by
  obtain ⟨-, hlen⟩ := hs.data i hi
  have hle := le_bytesToSectors (headerLength_lt s.disk i.sector)
  simp only [transferCnt] at hcnt ⊢
  omega

/-- The free map file and its inode. -/
theorem mapInode : ∃ f i, s.freeMapFile = some f.ptr ∧ IsMapFile s.openInodes s.files f ∧
    i ∈ s.openInodes ∧ i.ptr = f.inode ∧ i.sector = freeMapSector ∧ i.removed = false ∧
    MapFile s i := by
  obtain ⟨f, hf, hm⟩ := hs.heap.mapFile
  obtain ⟨i, hi, hptr, hsector, hremoved⟩ := hm.inode
  refine ⟨f, i, hf, hm, hi, hptr, hsector, hremoved, ?_, ?_, hs.dataOnDisk hi, ?_⟩
  · exact ⟨f, hf, hs.heap.lookup_file hm.mem, hptr ▸ hs.heap.lookup_inode hi⟩
  · rw [(hs.data i hi).2, hsector, hs.disk.mapLength, hs.mapBits]
  · -- only the free map file is on the inode, and it denies no writes
    have hzero : denyCnt s.files i.ptr = 0 := by
      apply List.countP_eq_zero.2
      intro g hg hdeny
      rw [Bool.and_eq_true, decide_eq_true_eq] at hdeny
      obtain rfl := hm.alone g hg (hdeny.1.trans hptr)
      rw [hm.allows] at hdeny
      exact Bool.false_ne_true hdeny.2
    rw [hs.heap.denyWriteCnt i hi, hzero]
    rfl

/-! ## Changes of the heap -/

theorem described (hi : i ∈ s.openInodes) : Described s i :=
  ⟨live_of_open hi, (hs.data i hi).1, (hs.data i hi).2, hs.nameless i hi⟩

/-- A change of the heap alone. -/
theorem of_heap {t : Fs} {held' : List Nat} (hdisk : t.disk = s.disk) (hmap : t.freeMap = s.freeMap)
    (hcap : t.capacity = s.capacity) (hfail : t.failures = s.failures)
    (hheap : HeapInv t.openInodes t.files t.nextPtr t.freeMapFile held')
    (hfrom : ∀ j ∈ t.openInodes, Described s j) : Inv t held' where
  failures := hfail.trans hs.failures
  mapBits := by rw [hmap, hcap, hs.mapBits]
  capacity := hcap ▸ hs.capacity
  disk := by
    rw [hdisk, hmap, hcap]
    apply hs.disk.reopen
    rintro h ⟨j, hj, rfl⟩
    exact (hfrom j hj).live
  heap := hheap
  data := by
    intro j hj
    rw [hdisk]
    exact ⟨(hfrom j hj).start, (hfrom j hj).length⟩
  nameless := by
    intro j hj
    rw [hdisk]
    exact (hfrom j hj).nameless
  mapStored := by
    rw [hdisk, hmap, hcap]
    exact hs.mapStored

/-- The inodes are described after one of them changes. -/
theorem described_update {g : Inode → Inode} (hi : i ∈ s.openInodes) (hg : Described s (g i)) :
    ∀ j ∈ update Inode.ptr s.openInodes i.ptr g, Described s j := by
  intro j hj
  rcases (hs.heap.uniquePtr.mem_update hi).1 hj with rfl | ⟨hj, -⟩
  · exact hg
  · exact hs.described hj

theorem reopened (hi : i ∈ s.openInodes) : Inv (reopened s i.ptr) (i.ptr :: held) :=
  hs.of_heap rfl rfl rfl rfl (hs.heap.reopen hi)
    (hs.described_update hi ((hs.described hi).of_eq rfl rfl rfl (hs.nameless i hi)))

theorem unshared (hi : i ∈ s.openInodes) (hp : i.ptr ∈ held) (hcnt : i.openCnt ≠ 1) :
    Inv (unshared s i.ptr) (held.erase i.ptr) :=
  hs.of_heap rfl rfl rfl rfl (hs.heap.unshare hi hp hcnt)
    (hs.described_update hi ((hs.described hi).of_eq rfl rfl rfl (hs.nameless i hi)))

/-- `inode_remove` on an inode that no entry names any more. -/
theorem remove (hi : i ∈ s.openInodes) (hsector : i.sector ≠ freeMapSector)
    (hnameless : Nameless s.disk i.sector) :
    Inv (s.mapInode i.ptr fun j => { j with removed := true }) held :=
  hs.of_heap rfl rfl rfl rfl (hs.heap.remove hi hsector)
    (hs.described_update hi ((hs.described hi).of_eq rfl rfl rfl fun _ => hnameless))

theorem loaded (hlive : LiveIn s h) (hnew : lookup Inode.sector s.openInodes h = none) :
    Inv (loaded s h) (s.nextPtr :: held) := by
  refine hs.of_heap rfl rfl rfl rfl (hs.heap.load rfl hnew rfl rfl) ?_
  intro j hj
  rcases List.mem_cons.1 hj with rfl | hj
  · exact described_loadInode hlive
  · exact hs.described hj

theorem dropInode (hi : i ∈ s.openInodes) (hp : i.ptr ∈ held) (hcnt : i.openCnt = 1) :
    Inv (s.dropInode i.ptr) (held.erase i.ptr) :=
  hs.of_heap rfl rfl rfl rfl (hs.heap.drop hi hp hcnt) fun _ hj => hs.described (mem_erase.1 hj).1

theorem openFile (hi : i ∈ s.openInodes) (hp : i.ptr ∈ held) (hmap : i.sector ≠ freeMapSector)
    (hroot : i.sector ≠ rootDirSector) :
    Inv (s.addFile i.ptr) (held.erase i.ptr) :=
  hs.of_heap rfl rfl rfl rfl (hs.heap.openFile hi hp hmap hroot) fun _ hj => hs.described hj

theorem dropFile (hf : f ∈ s.files) (hmap : s.freeMapFile ≠ some f.ptr)
    (hallow : f.denyWrite = false) : Inv (s.dropFile f.ptr) (f.inode :: held) :=
  hs.of_heap rfl rfl rfl rfl (hs.heap.dropFile hf hmap hallow) fun _ hj => hs.described hj

theorem movePos {g : File → File} (hptr : ∀ f, (g f).ptr = f.ptr)
    (hinode : ∀ f, (g f).inode = f.inode) (hdeny : ∀ f, (g f).denyWrite = f.denyWrite)
    (hf : f ∈ s.files) (hmap : s.freeMapFile ≠ some f.ptr) (hpos : 0 ≤ (g f).pos) :
    Inv (s.mapFile f.ptr g) held :=
  hs.of_heap rfl rfl rfl rfl (hs.heap.movePos hptr hinode hf hmap hdeny hpos)
    fun _ hj => hs.described hj

theorem setDeny {g : File → File} {u : Inode → Inode} (hptr : ∀ f, (g f).ptr = f.ptr)
    (hinode : ∀ f, (g f).inode = f.inode) (hpos : ∀ f, (g f).pos = f.pos)
    (huptr : ∀ j, (u j).ptr = j.ptr) (husector : ∀ j, (u j).sector = j.sector)
    (huopen : ∀ j, (u j).openCnt = j.openCnt) (huremoved : ∀ j, (u j).removed = j.removed)
    (hustart : ∀ j, (u j).start = j.start) (hulength : ∀ j, (u j).length = j.length)
    (hf : f ∈ s.files) (hmap : s.freeMapFile ≠ some f.ptr) (hi : i ∈ s.openInodes)
    (hif : i.ptr = f.inode) (hcnt : (u i).denyWriteCnt + (if f.denyWrite then 1 else 0) =
      i.denyWriteCnt + if (g f).denyWrite then 1 else 0) :
    Inv ((s.mapFile f.ptr g).mapInode i.ptr u) held := by
  refine hs.of_heap rfl rfl rfl rfl (hs.heap.setDeny hptr hinode hf hmap hpos huptr husector huopen
    huremoved hi hif hcnt) (hs.described_update hi ?_)
  apply (hs.described hi).of_eq (husector i) (hustart i) (hulength i)
  rw [huremoved]
  exact hs.nameless i hi

/-! ## Changes of the disk -/

/-- A change of the disk that keeps the layout, with a new free map. -/
theorem of_layout (hsame : SameLayout s.disk d (openSectors s))
    (hbits : m.bitCnt = s.freeMap.bitCnt)
    (hused : ∀ h, LiveIn s h → owned s.disk h ⊆ usedSectors m s.capacity)
    (hstored : ∀ x < s.capacity, (m.ofBytes (mapBytes d)).test x = m.test x) :
    Inv { s with disk := d, freeMap := m } held where
  failures := hs.failures
  mapBits := hbits.trans hs.mapBits
  capacity := hs.capacity
  disk := hs.disk.of_same hsame hused
  heap := hs.heap
  data := by
    intro j hj
    obtain ⟨hstart, hlength⟩ := hs.data j hj
    exact ⟨hstart.trans (hsame.start _ (live_of_open hj)).symm,
      hlength.trans (hsame.length _ (live_of_open hj)).symm⟩
  nameless := by
    intro j hj hremoved
    obtain ⟨hroot, hbound⟩ := hs.nameless j hj hremoved
    exact ⟨hroot, fun k hb => hbound k (hsame.bound_iff.1 hb)⟩
  mapStored := hstored

/-- The bytes of the free map file are in its data sectors. -/
theorem mapBytes_le :
    byteCnt s.capacity ≤ sectorSize * bytesToSectors (headerLength s.disk freeMapSector) := by
  have hle := le_bytesToSectors (headerLength_lt s.disk freeMapSector)
  have hlen := hs.disk.mapLength
  omega

/-- The stored free map is kept by a change outside the free map file. -/
theorem mapStored_of_agree (hstart : headerStart d freeMapSector = headerStart s.disk freeMapSector)
    (ha : AgreeOn s.disk d (extent s.disk freeMapSector)) {x : Nat} (hx : x < s.capacity) :
    (s.freeMap.ofBytes (mapBytes d)).test x = s.freeMap.test x := by
  have hbytes : ∀ k < byteCnt s.freeMap.bitCnt, mapBytes d k = mapBytes s.disk k := by
    intro k hk
    rw [hs.mapBits] at hk
    rw [mapBytes, mapBytes, hstart, AgreeOn.data ha (lt_of_lt_of_le hk hs.mapBytes_le)]
  rw [Bitmap.ofBytes_congr hbytes]
  exact hs.mapStored x hx

/-- Writing the data of an open inode changes its data sectors only. -/
theorem writeData_agree (hi : i ∈ s.openInodes) {o n : Nat} {f : Nat → UInt8}
    (hn : o + n ≤ sectorSize * bytesToSectors (headerLength s.disk i.sector)) :
    AgreeOn s.disk (s.patchDisk (sectorSize * i.start + o) n f).disk (extent s.disk i.sector)ᶜ := by
  apply agreeOn_patch hn
  intro x hx
  by_contra hin
  rw [(hs.data i hi).1] at hin
  exact hx ⟨by omega, by omega⟩

/-- Writing the data of an inode other than the free map file and the root directory. -/
theorem writeData (hi : i ∈ s.openInodes) (hmap : i.sector ≠ freeMapSector)
    (hroot : i.sector ≠ rootDirSector) {o n : Nat} {f : Nat → UInt8}
    (hn : o + n ≤ sectorSize * bytesToSectors (headerLength s.disk i.sector)) :
    Inv (s.patchDisk (sectorSize * i.start + o) n f) held := by
  have hlive := live_of_open hi
  have ha := hs.writeData_agree hi (f := f) hn
  have hsame := hs.disk.sameLayout_of_data hlive hroot ha
  apply hs.of_layout hsame rfl (fun h hh => (hs.disk.placed h hh).used)
  intro x hx
  apply hs.mapStored_of_agree (hsame.start _ live_map) _ hx
  apply ha.mono
  intro x hx hxi
  exact Set.disjoint_left.1 (hs.disk.disjoint _ _ live_map hlive hmap.symm) (extent_subset hx)
    (extent_subset hxi)

theorem storeMap_agree (hi : i ∈ s.openInodes) (hsector : i.sector = freeMapSector)
    (hbits : m.bitCnt = s.freeMap.bitCnt) :
    AgreeOn s.disk (storeMap s i m).disk (extent s.disk freeMapSector)ᶜ := by
  apply agreeOn_storeMap
  · rw [(hs.data i hi).1, hsector]
  · rw [hbits, hs.mapBits]
    exact hs.mapBytes_le

/-- Storing a new free map in which the sectors of live inodes stay marked. -/
theorem storeMap (hi : i ∈ s.openInodes) (hsector : i.sector = freeMapSector)
    (hbits : m.bitCnt = s.freeMap.bitCnt)
    (hused : ∀ h, LiveIn s h → owned s.disk h ⊆ usedSectors m s.capacity) :
    Inv (storeMap s i m) held := by
  have hne : freeMapSector ≠ rootDirSector := by decide
  have hsame := hs.disk.sameLayout_of_data live_map hne (hs.storeMap_agree hi hsector hbits)
  refine hs.of_layout hsame hbits hused ?_
  intro x hx
  have haddr : dataAddr i 0 =
      sectorSize * headerStart (FreeMap.storeMap s i m).disk freeMapSector := by
    rw [hsame.start _ live_map, dataAddr, (hs.data i hi).1, hsector]
    rfl
  apply Bitmap.test_ofBytes
  · exact fun k hk => mapBytes_storeMap haddr hk
  · rw [hbits, hs.mapBits]
    exact hx

/-- Writing sectors that no live inode owns. -/
theorem writeFree (ha : ∀ h, LiveIn s h → AgreeOn s.disk d (owned s.disk h)) :
    Inv { s with disk := d } held := by
  have hsame : SameLayout s.disk d (openSectors s) := by
    apply hs.disk.sameLayout
    · intro h hh
      apply (ha h hh).mono
      rintro x rfl
      exact mem_owned
    · exact (ha _ live_root).mono extent_subset
  exact hs.of_layout hsame rfl (fun h hh => (hs.disk.placed h hh).used)
    fun _ hx => hs.mapStored_of_agree (hsame.start _ live_map)
      ((ha _ live_map).mono extent_subset) hx

/-! ## Changes of the root directory -/

/-- Overwriting an entry, when the disk stays consistent and no removed inode is named. -/
theorem of_writeEntry (hk : k < rootEntries)
    (hdisk : DiskInv (writeEntry s.disk k e) s.freeMap s.capacity (openSectors s))
    (hbound : ∀ i ∈ s.openInodes, i.removed = true →
      ∀ k', ¬ Bound (writeEntry s.disk k e) k' i.sector) :
    Inv { s with disk := writeEntry s.disk k e } held where
  failures := hs.failures
  mapBits := hs.mapBits
  capacity := hs.capacity
  disk := hdisk
  heap := hs.heap
  data := by
    intro j hj
    obtain ⟨hstart, hlength⟩ := hs.data j hj
    obtain ⟨h1, h2⟩ := hs.disk.writeEntry_header hk e
      (hs.disk.header_not_data (live_of_open hj) live_root)
    exact ⟨hstart.trans h1.symm, hlength.trans h2.symm⟩
  nameless := fun j hj hremoved => ⟨(hs.nameless j hj hremoved).1, hbound j hj hremoved⟩
  mapStored := by
    intro x hx
    have hne : freeMapSector ≠ rootDirSector := by decide
    have hhead := hs.disk.writeEntry_header hk e (hs.disk.header_not_data live_map live_root)
    apply hs.mapStored_of_agree hhead.1 _ hx
    apply (hs.disk.writeEntry_agree hk e).mono
    intro x hx hxr
    exact Set.disjoint_left.1 (hs.disk.disjoint _ _ live_map live_root hne) (extent_subset hx)
      (extent_subset hxr)

theorem unbind (hk : k < rootEntries) (he : entryInUse e = false) :
    Inv { s with disk := writeEntry s.disk k e } held := by
  apply hs.of_writeEntry hk (hs.disk.unbind hk he)
  intro j hj hremoved k' hb
  rw [hs.disk.writeEntry_bound hk] at hb
  split at hb
  · rw [he] at hb
    exact Bool.false_ne_true hb.1
  · exact (hs.nameless j hj hremoved).2 k' hb

theorem bind {name : CString} (hk : k < rootEntries)
    (hr : Reserved s.disk s.freeMap s.capacity (openSectors s) h) (hsector : entrySector e = h)
    (hname : entryName e = name.bytes)
    (hfree : ∀ j < rootEntries, ¬ EntryFor (rootSlot s.disk j) name) :
    Inv { s with disk := writeEntry s.disk k e } held := by
  apply hs.of_writeEntry hk (hs.disk.bind hk hr hsector hname hfree)
  intro j hj hremoved k' hb
  rw [hs.disk.writeEntry_bound hk] at hb
  split at hb
  · have hjh : j.sector = h := hb.2.symm.trans hsector
    exact hr.not_live (hjh ▸ live_of_open hj)
  · exact (hs.nameless j hj hremoved).2 k' hb

end Inv

end Facts

end Pintos.Filesys.Invariant
