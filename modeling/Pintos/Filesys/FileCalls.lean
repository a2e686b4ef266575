import Pintos.Filesys.Calls

/-!
# Opening and removing files by name

`filesys_open` and `filesys_remove` from a consistent state. Both lead to a consistent state and
change on the disk at most the root directory and the free map file. `filesys_remove` frees the
sectors of the file when nobody has it open, and otherwise leaves that to the last `file_close`.
-/

set_option autoImplicit false

namespace Pintos.Filesys.FileCalls

open Lib.KeyedList Lib.StateExcept LibKernel
open Filesys.State InodeIo FreeMap Inode
open Filesys.File Directory Operations Layout
open Accounts Handles Invariant Calls

variable {s : Fs} {held : List Nat} {i i0 r : Inode} {h : Nat}

/-! ## The root directory -/

/-- Between two calls the root directory is closed. -/
theorem root_closed (hs : Inv s []) : lookup Inode.sector s.openInodes rootDirSector = none := by
  apply lookup_eq_none_iff.2
  intro i hi hsector
  have hopen := hs.heap.openCnt i hi
  have hpos := hs.heap.openCnt_pos i hi
  rw [refCnt, List.count_nil, Nat.add_zero] at hopen
  obtain ⟨f, hf, hfi⟩ := List.countP_pos_iff.1 (show 0 < fileCnt s.files i.ptr by omega)
  obtain ⟨j, hj, hjptr, hjsector⟩ := hs.heap.file_inode hf
  rw [decide_eq_true_eq] at hfi
  obtain rfl := hs.heap.eq_of_ptr hi hj (hfi.symm.trans hjptr.symm)
  exact hjsector hsector

/-- The state with the root directory open. -/
def rootOpened (s : Fs) : Fs := loaded s rootDirSector

/-- The inode of the root directory, when it is opened from `s`. -/
def rootInode (s : Fs) : Inode := loadInode s rootDirSector

@[simp] theorem rootOpened_disk (s : Fs) : (rootOpened s).disk = s.disk := rfl

@[simp] theorem rootOpened_freeMap (s : Fs) : (rootOpened s).freeMap = s.freeMap := rfl

theorem wp_dirOpenRoot (hs : Inv s []) (Q : Option Dir → Fs → Prop) :
    wp dirOpenRoot s Q ↔ Q (some ⟨(rootInode s).ptr, 0⟩) (rootOpened s) := by
  have hopened : opened s rootDirSector = (s.nextPtr, loaded s rootDirSector) := by
    rw [opened, root_closed hs]
  rw [dirOpenRoot, wp_bind, wp_inodeOpen hs live_root, hopened, dirOpen, wp_bind,
    wp_malloc (s := loaded s rootDirSector) hs.failures, wp_pure]
  exact Iff.rfl

theorem inv_rootOpened (hs : Inv s []) : Inv (rootOpened s) [(rootInode s).ptr] :=
  hs.loaded live_root (root_closed hs)

theorem mem_rootOpened : rootInode s ∈ (rootOpened s).openInodes := List.mem_cons_self

section

variable (hs : Inv s held) (hr : r ∈ s.openInodes) (hsector : r.sector = rootDirSector)
include hs hr hsector

/-- No file is on the inode of the root directory. -/
theorem root_fileCnt :
    fileCnt s.files r.ptr = 0 := by
  apply List.countP_eq_zero.2
  intro f hf hfr
  obtain ⟨j, hj, hjptr, hjsector⟩ := hs.heap.file_inode hf
  rw [decide_eq_true_eq] at hfr
  obtain rfl := hs.heap.eq_of_ptr hr hj (hfr.symm.trans hjptr.symm)
  exact hjsector hsector

/-- The open root directory can be read and written. -/
theorem dirFile_root (pos : Int) : DirFile s ⟨r.ptr, pos⟩ r rootEntries ∧ r.denyWriteCnt = 0 ∧
      r.start = headerStart s.disk rootDirSector := by
  obtain ⟨hstart, hlen⟩ := hs.data r hr
  refine ⟨⟨⟨hs.heap.lookup_inode hr, ?_, hs.dataOnDisk hr⟩, hs.failures⟩, ?_, ?_⟩
  · rw [hlen, hsector, hs.disk.rootLength]
  · have hle := denyCnt_le_fileCnt s.files r.ptr
    rw [root_fileCnt hs hr hsector] at hle
    rw [hs.heap.denyWriteCnt r hr, Nat.le_zero.1 hle]
    rfl
  · rw [hstart, hsector]

/-- Closing the root directory takes its inode out of the table. -/
theorem wp_dirClose (hcount : held.count r.ptr = 1) (pos : Int) (Q : Unit → Fs → Prop) :
    wp (dirClose (some ⟨r.ptr, pos⟩)) s Q ↔ Q () (s.dropInode r.ptr) := by
  obtain ⟨f, i0, -, -, hi0, -, hi0sector, -, hm⟩ := hs.mapInode
  have hcnt : r.openCnt = 1 := by
    rw [hs.heap.openCnt r hr, refCnt, root_fileCnt hs hr hsector, hcount]
    rfl
  have hremoved : r.removed = false := by
    cases hrem : r.removed with
    | false => rfl
    | true => exact absurd hsector (hs.nameless r hr hrem).1
  have hne : i0.ptr ≠ r.ptr := by
    intro e
    obtain rfl := hs.heap.eq_of_ptr hi0 hr e
    exact absurd (hi0sector.symm.trans hsector) (by decide)
  rw [dirClose, wp_inodeClose hs.failures (hs.heap.lookup_inode hr) hm hne (freeable hs hr), closed,
    if_pos hcnt, hremoved, if_neg Bool.false_ne_true]

theorem inv_dropRoot (hcount : held.count r.ptr = 1) :
    Inv (s.dropInode r.ptr) (held.erase r.ptr) := by
  have hcnt : r.openCnt = 1 := by
    rw [hs.heap.openCnt r hr, refCnt, root_fileCnt hs hr hsector, hcount]
    rfl
  exact hs.dropInode hr (List.count_pos_iff.1 (by omega)) hcnt

/-! ## Opening a file -/

/-- `lookup` in the open root directory: the entry and its sector, which is that of a live inode. -/
theorem wp_lookupRoot {name : CString} (pos : Int) {Q : Option ((Nat → UInt8) × Nat) → Fs → Prop}
    (hfound : ∀ m e, m < rootEntries → EntryFor (rootSlot s.disk m) name →
      Bound s.disk m (entrySector e) → (∀ j < entrySize, e j = rootSlot s.disk m j) →
      Q (some (e, entrySize * m)) s)
    (hnone : (∀ m < rootEntries, ¬ EntryFor (rootSlot s.disk m) name) → Q none s) :
    wp (Directory.lookup ⟨r.ptr, pos⟩ name) s Q := by
  obtain ⟨hd, -, hstart⟩ := dirFile_root hs hr hsector pos
  have hslot : ∀ m, slot s.disk r.start m = rootSlot s.disk m := by
    intro m
    rw [hstart]
    rfl
  apply wp_lookup hd
  · intro m e hm hfor he
    rw [hslot] at hfor he
    exact hfound m e hm hfor ⟨hm, hfor.1, (entrySector_congr he).symm⟩ he
  · intro hall
    apply hnone
    intro m hm
    rw [← hslot]
    exact hall m hm

end

theorem wp_fileOpen (hf : s.failures = []) (inode : Nat) (Q : Option Nat → Fs → Prop) :
    wp (fileOpen (some inode)) s Q ↔ Q (some s.nextPtr) (s.addFile inode) := by
  simp only [fileOpen, wp_bind, wp_malloc hf, wp_newPtr, wp_modify, wp_pure]
  exact Iff.rfl

theorem wp_fileOpen_none (hf : s.failures = []) (Q : Option Nat → Fs → Prop) :
    wp (fileOpen none) s Q ↔ Q none s := by
  simp [fileOpen, wp_malloc hf, inodeClose]

theorem quiet_addFile (inode : Nat) : Quiet s (s.addFile inode) :=
  quiet_of_disk rfl ⟨fun j hj _ => ⟨j, hj, .refl j⟩, Nat.le_succ _⟩

theorem quiet_rootOpened (hs : Inv s []) : Quiet s (rootOpened s) := by
  have hopened : (opened s rootDirSector).2 = rootOpened s := by
    rw [opened, root_closed hs]
    rfl
  exact hopened ▸ quiet_opened rootDirSector

theorem quiet_dropInode (p : Nat) : Quiet s (s.dropInode p) :=
  quiet_of_disk rfl (keepsInodes_dropInode p)

/-- What `filesys_open` does when the name belongs to the inode in sector `h`: there is a new file
`f`, on the inode `i` for the sector. -/
structure OpenEffect (s t : Fs) (h : Nat) (f : File) (i : Inode) : Prop where
  inv : Inv t []
  quiet : Quiet s t
  freeMap : t.freeMap = s.freeMap
  disk : t.disk = s.disk
  file : f ∈ t.files
  user : t.freeMapFile ≠ some f.ptr
  pos : f.pos = 0
  inode : i ∈ t.openInodes
  ptr : i.ptr = f.inode
  sector : i.sector = h
  /-- Nobody denies writes if the file was not open before. -/
  allows : h ∉ openSectors s → i.denyWriteCnt = 0

/-- No inode of the sector is open, apart from that of the root directory. -/
theorem openSectors_rootOpened (hroot : h ≠ rootDirSector) (hclosed : h ∉ openSectors s) :
    h ∉ openSectors (rootOpened s) := by
  rintro ⟨i, hi, hsector⟩
  rcases List.mem_cons.1 hi with rfl | hi
  · exact hroot hsector.symm
  · exact hclosed ⟨i, hi, hsector⟩

/-- The rest of `filesys_open` once the inode is open: the root directory is closed and the file is
made. -/
theorem wp_openBound (hs : Inv s []) {k : Nat} (hb : Bound s.disk k h) :
    wp (do
        dirClose (some ⟨(rootInode s).ptr, 0⟩)
        fileOpen (some (opened (rootOpened s) h).1)) (opened (rootOpened s) h).2
      fun r t => ∃ f i, r = some f.ptr ∧ OpenEffect s t h f i := by
  have hs1 := inv_rootOpened hs
  have hr : rootInode s ∈ (rootOpened s).openInodes := mem_rootOpened
  have hq1 := quiet_rootOpened hs
  have hne := hs1.disk.bound_ne k _ hb
  -- the file's inode and the root directory are open
  have hs2 := inv_opened hs1 (live_bound hb)
  obtain ⟨hr2, hptr⟩ := mem_opened_other (h := h) hs1 hr (fun e' => hne.2 e'.symm)
  have hcount : List.count (rootInode s).ptr
      [(opened (rootOpened s) h).1, (rootInode s).ptr] = 1 := by
    rw [List.count_cons_of_ne hptr.symm, List.count_singleton_self]
  rw [wp_bind, wp_dirClose hs2 hr2 rfl hcount]
  have hs3 := inv_dropRoot hs2 hr2 rfl hcount
  rw [List.erase_cons_tail (by simpa using hptr.symm), List.erase_cons_head] at hs3
  obtain ⟨j, hj, hjptr, hjsector⟩ := exists_opened hs1 (live_bound hb)
  have hj3 : j ∈ ((opened (rootOpened s) h).2.dropInode (rootInode s).ptr).openInodes :=
    mem_erase.2 ⟨hj, fun e' => hptr (e'.symm.trans hjptr)⟩
  have hs4 := hs3.openFile hj3 (hjptr ▸ List.mem_cons_self) (hjsector ▸ hne.1) (hjsector ▸ hne.2)
  rw [hjptr, List.erase_cons_head] at hs4
  rw [wp_fileOpen hs3.failures]
  refine ⟨⟨_, _, 0, false⟩, j, rfl, hs4, ?_, ?_, ?_, List.mem_cons_self, ?_, rfl, hj3,
    hjptr, hjsector, ?_⟩
  · exact ((hq1.trans (quiet_opened _)).trans (quiet_dropInode _)).trans (quiet_addFile _)
  · rw [Fs.addFile_freeMap, Fs.dropInode_freeMap, opened_freeMap, rootOpened_freeMap]
  · rw [Fs.addFile_disk, Fs.dropInode_disk, opened_disk, rootOpened_disk]
  · -- the pointer of the new file was never used before
    obtain ⟨f0, hf0, hm⟩ := hs3.heap.mapFile
    intro hmap
    have hlt := hs3.heap.file_lt f0 hm.mem
    rw [Option.some.inj (hf0.symm.trans hmap)] at hlt
    exact lt_irrefl _ hlt
  · intro hclosed
    rcases mem_opened hs1 hj with ⟨-, -, ⟨rfl, -⟩ | ⟨i, hi, hij⟩⟩ | ⟨-, hother, -⟩
    · rfl
    · have hisector : i.sector = h := by
        rw [← hjsector, hij]
      exact absurd ⟨i, hi, hisector⟩ (openSectors_rootOpened hne.2 hclosed)
    · exact absurd hjptr hother

/-- **`filesys_open`** of a name that belongs to a file. -/
theorem wp_filesysOpen_bound (hs : Inv s []) {name : CString} {k : Nat} (hb : Bound s.disk k h)
    (hfor : EntryFor (rootSlot s.disk k) name) :
    wp (filesysOpen name) s fun r t => ∃ f i, r = some f.ptr ∧ OpenEffect s t h f i := by
  rw [filesysOpen, wp_bind, wp_dirOpenRoot hs]
  rw [wp_bind, dirLookup, wp_bind]
  apply wp_lookupRoot (inv_rootOpened hs) mem_rootOpened rfl
  · intro m e hm hfor' hb' he
    -- the entry that is found is the only one for the name
    obtain rfl := hs.disk.name_inj m k name hm hb.1 hfor' hfor
    have hsector : entrySector e = h := (hb'.2.2.symm).trans hb.2.2
    dsimp only
    rw [hsector, wp_inodeOpen (inv_rootOpened hs) (live_bound hb)]
    exact wp_openBound hs hb
  · intro hnone
    exact absurd hfor (hnone k hb.1)

/-- **`filesys_open`** changes neither the disk nor the free map. -/
theorem wp_filesysOpen (hs : Inv s []) (name : CString) :
    wp (filesysOpen name) s fun _ t =>
      Inv t [] ∧ Quiet s t ∧ t.freeMap = s.freeMap ∧ t.disk = s.disk := by
  have hs1 := inv_rootOpened hs
  have hr : rootInode s ∈ (rootOpened s).openInodes := mem_rootOpened
  rw [filesysOpen, wp_bind, wp_dirOpenRoot hs]
  rw [wp_bind, dirLookup, wp_bind]
  apply wp_lookupRoot hs1 hr rfl
  · intro m e hm _ hb _
    rw [wp_inodeOpen hs1 (live_bound hb)]
    apply wp_mono (wp_openBound hs hb)
    rintro _ t ⟨f, i, -, he⟩
    exact ⟨he.inv, he.quiet, he.freeMap, he.disk⟩
  · intro _
    have hcount : List.count (rootInode s).ptr [(rootInode s).ptr] = 1 := List.count_singleton_self
    have hs2 := inv_dropRoot hs1 hr rfl hcount
    rw [List.erase_cons_head] at hs2
    rw [wp_pure, wp_bind, wp_dirClose hs1 hr rfl hcount, wp_fileOpen_none hs2.failures]
    exact ⟨hs2, (quiet_rootOpened hs).trans (quiet_dropInode _),
      by rw [Fs.dropInode_freeMap, rootOpened_freeMap], by rw [Fs.dropInode_disk, rootOpened_disk]⟩

/-! ## Removing a file -/

/-- Writing an entry of the open root directory. -/
theorem wp_writeRoot (hs : Inv s held) (hr : r ∈ s.openInodes) (hsector : r.sector = rootDirSector)
    {k : Nat} (hk : k < rootEntries) (e : Nat → UInt8) (Q : Nat → Fs → Prop) :
    wp (inodeWriteAt r.ptr e entrySize (entrySize * k : Nat)) s Q ↔
      Q entrySize { s with disk := writeEntry s.disk k e } := by
  obtain ⟨hd, hdeny, hstart⟩ := dirFile_root hs hr hsector 0
  have hcnt : transferCnt r entrySize (entrySize * k : Nat) = entrySize := by
    have hlen := hd.length
    simp only [transferCnt, entrySize, rootEntries] at hlen hk ⊢
    omega
  have hstate : s.patchDisk (dataAddr r (entrySize * k : Nat)) entrySize e =
      { s with disk := writeEntry s.disk k e } := by
    rw [dataAddr, Int.toNat_natCast, hstart]
    rfl
  rw [wp_inodeWriteAt hd.failures hd.opened hd.onDisk (Int.natCast_nonneg _) hdeny, hcnt, hstate]

/-- After its entry is freed, an inode has no name. -/
theorem nameless_freed (hs : Inv s held) {k : Nat} (hb : Bound s.disk k h) {e : Nat → UInt8}
    (he : entryInUse e = false) : Nameless (writeEntry s.disk k e) h := by
  refine ⟨(hs.disk.bound_ne k h hb).2, ?_⟩
  intro k' hb'
  rw [hs.disk.writeEntry_bound hb.1] at hb'
  by_cases hkk : k' = k
  · rw [if_pos hkk, he] at hb'
    exact Bool.false_ne_true hb'.1
  · rw [if_neg hkk] at hb'
    exact hkk (hs.disk.bound_inj k' k h hb' hb)

/-- The inode of the free map file is another than one on a different sector. -/
theorem mapInode_of (hs : Inv s held) (hi : i ∈ s.openInodes) (hsector : i.sector ≠ freeMapSector) :
    ∃ i0 ∈ s.openInodes, i0.sector = freeMapSector ∧ i0.ptr ≠ i.ptr ∧ MapFile s i0 := by
  obtain ⟨f, i0, -, -, hi0, -, hi0sector, -, hm⟩ := hs.mapInode
  refine ⟨i0, hi0, hi0sector, ?_, hm⟩
  intro e
  obtain rfl := hs.heap.eq_of_ptr hi0 hi e
  exact hsector hi0sector

/-- What `filesys_remove` does to the free map when the name belongs to the inode in sector `h`: its
sectors are freed at once if nobody has it open, and otherwise nothing is, but it is marked. -/
def RemoveEffect (s t : Fs) (h : Nat) : Prop :=
  (h ∈ openSectors s → t.freeMap = s.freeMap ∧ ∃ j ∈ t.openInodes, j.sector = h ∧
    j.removed = true) ∧
  (h ∉ openSectors s → h ∉ openSectors t ∧ ∀ x, t.freeMap.test x = true ↔
    s.freeMap.test x = true ∧ x ∉ owned s.disk h)

/-- The state in which `dir_remove` closes the inode: it is open, its entry is freed, and it is
marked. -/
def marked (s : Fs) (h k : Nat) (e : Nat → UInt8) : Fs :=
  Fs.mapInode { (opened s h).2 with disk := writeEntry s.disk k e } (opened s h).1
    fun j => { j with removed := true }

@[simp] theorem marked_freeMap (h k : Nat) (e : Nat → UInt8) :
    (marked s h k e).freeMap = s.freeMap :=
  opened_freeMap s h

/-- The state before the inode is closed is consistent, with the inode marked and the root directory
still open. -/
theorem inv_marked {k : Nat} {e : Nat → UInt8} (hs : Inv s held) (hb : Bound s.disk k h)
    (he : entryInUse e = false) {j : Inode} (hj : j ∈ (opened s h).2.openInodes)
    (hptr : j.ptr = (opened s h).1) (hsector : j.sector = h) :
    Inv (marked s h k e) ((opened s h).1 :: held) ∧ Quiet s (marked s h k e) ∧
      { j with removed := true } ∈ (marked s h k e).openInodes ∧
      ∀ i ∈ s.openInodes, i.sector ≠ h → i ∈ (marked s h k e).openInodes := by
  have hne := hs.disk.bound_ne k h hb
  have hs1 := inv_opened hs (live_bound hb)
  have hb1 : Bound (opened s h).2.disk k h := (opened_disk s h).symm ▸ hb
  have hs2 := hs1.unbind hb1.1 he
  have hs3 := hs2.remove hj (hsector ▸ hne.1) (hsector ▸ nameless_freed hs1 hb1 he)
  have hstate : Fs.mapInode { (opened s h).2 with disk := writeEntry (opened s h).2.disk k e } j.ptr
      (fun j => { j with removed := true }) = marked s h k e := by
    rw [hptr, opened_disk, marked]
  rw [hstate] at hs3
  refine ⟨hs3, ?_, ?_, ?_⟩
  · have hq2 := (quiet_opened h).trans (quiet_writeEntry hs1 hb1.1 e)
    rw [opened_disk] at hq2
    exact hq2.trans
      (quiet_of_disk rfl (keepsInodes_mapInode fun j => ⟨rfl, rfl, rfl, rfl, fun _ => rfl⟩))
  · rw [← hstate]
    exact (hs2.heap.uniquePtr.mem_update hj).2 (Or.inl rfl)
  · intro i hi hih
    obtain ⟨hi1, hine⟩ := mem_opened_other hs hi hih
    rw [← hstate]
    exact (hs2.heap.uniquePtr.mem_update hj).2 (Or.inr ⟨hi1, hptr ▸ hine⟩)

/-- The close in `dir_remove` frees the sectors of the inode exactly when nobody else has it
open. -/
theorem removeEffect_closed {k : Nat} {e : Nat → UInt8} (hs : Inv s held) (hb : Bound s.disk k h)
    (he : entryInUse e = false) {j : Inode} (hj : j ∈ (opened s h).2.openInodes)
    (hptr : j.ptr = (opened s h).1) (hsector : j.sector = h) :
    RemoveEffect s (closed (marked s h k e) { j with removed := true } i0) h := by
  obtain ⟨hs3, -, hj3, -⟩ := inv_marked hs hb he hj hptr hsector
  rcases mem_opened hs hj with ⟨-, -, ⟨rfl, hclosed⟩ | ⟨i, hi, rfl⟩⟩ | ⟨-, hne, -⟩
  · -- the inode was loaded for this call, so this is its last reference
    refine ⟨fun hmem => absurd hmem hclosed, fun _ => ⟨?_, ?_⟩⟩
    · rintro ⟨l, hl, hlsector⟩
      rcases (mem_closed hs3 hj3).1 hl with ⟨hl, hlne⟩ | ⟨hcnt, -⟩
      · have hsame : l.sector = (loadInode s h).sector := hlsector
        exact hlne (congrArg Inode.ptr (hs3.heap.uniqueSector.eq_of_key hl hj3 hsame))
      · exact hcnt rfl
    · intro x
      have hmem : x ∈ owned s.disk h ↔ x = h ∨ (headerStart s.disk h ≤ x ∧
          x < headerStart s.disk h + bytesToSectors (headerLength s.disk h)) := Iff.rfl
      have htest := test_freedMap (freeable hs3 hj3) x
      rw [marked_freeMap] at htest
      rw [closed_freeMap, if_pos ⟨rfl, rfl⟩, marked_freeMap, htest, hmem]
      simp only [loadInode]
      by_cases hx : x = h ∨ (headerStart s.disk h ≤ x ∧
          x < headerStart s.disk h + bytesToSectors (headerLength s.disk h))
      · simp [hx]
      · simp [hx]
  · -- another opener holds the inode
    have hpos := hs.heap.openCnt_pos i hi
    have hcnt : i.openCnt + 1 ≠ 1 := by omega
    refine ⟨fun _ => ⟨?_, ?_⟩, fun hnot => absurd ⟨i, hi, hsector⟩ hnot⟩
    · rw [closed_freeMap, if_neg fun hc => hcnt hc.1, marked_freeMap]
    · exact ⟨_, (mem_closed hs3 hj3).2 (Or.inr ⟨hcnt, rfl⟩), hsector, rfl⟩
  · exact absurd hptr hne

/-- `dir_remove` on the open root directory. -/
theorem wp_dirRemove (hs : Inv s [r.ptr]) (hr : r ∈ s.openInodes)
    (hsector : r.sector = rootDirSector) (name : CString) :
    wp (dirRemove ⟨r.ptr, 0⟩ name) s fun _ t => Inv t [r.ptr] ∧ r ∈ t.openInodes ∧ Quiet s t ∧
      ((∀ k < rootEntries, ¬ EntryFor (rootSlot s.disk k) name) → t = s) ∧
      ∀ k h, EntryFor (rootSlot s.disk k) name → Bound s.disk k h → RemoveEffect s t h := by
  rw [dirRemove, wp_bind]
  apply wp_lookupRoot hs hr hsector
  · intro m e hm hfor hb he
    have hne := hs.disk.bound_ne m _ hb
    have hfreed : entryInUse (freedEntry e) = false := entryInUse_freedEntry
    rw [wp_bind, wp_inodeOpen hs (live_bound hb)]
    have hs1 := inv_opened hs (live_bound hb)
    obtain ⟨hr1, hrptr⟩ := mem_opened_other (h := entrySector e) hs hr fun e' =>
      hne.2 (e'.symm.trans hsector)
    rw [wp_bind, wp_writeRoot hs1 hr1 hsector hm, if_pos rfl, inodeRemove, wp_bind, wp_updateInode,
      opened_disk]
    change wp _ (marked s (entrySector e) m (freedEntry e)) _
    obtain ⟨j, hj, hjptr, hjsector⟩ := exists_opened hs (live_bound hb)
    obtain ⟨hs3, hq3, hj3, hkeep⟩ := inv_marked hs hb hfreed hj hjptr hjsector
    obtain ⟨i0, hi0, hi0sector, hi0ptr, hmap⟩ := mapInode_of hs3 hj3 (hjsector ▸ hne.1)
    have hr3 := hkeep r hr fun e' => hne.2 (e'.symm.trans hsector)
    have hp : j.ptr ∈ (opened s (entrySector e)).1 :: [r.ptr] := hjptr ▸ List.mem_cons_self
    have hs4 := inv_closed hs3 hj3 hp hi0 hi0sector hi0ptr
    have hclose :=
      wp_inodeClose hs3.failures (hs3.heap.lookup_inode hj3) hmap hi0ptr (freeable hs3 hj3)
    rw [← hjptr, wp_bind, hclose, wp_pure]
    refine ⟨?_, ?_, ?_, ?_, ?_⟩
    · rw [← hjptr] at hs4
      simpa using hs4
    · exact (mem_closed hs3 hj3).2 (Or.inl ⟨hr3, fun e' => hrptr (e'.trans hjptr)⟩)
    · exact hq3.trans (quiet_closed hs3 hj3 hp hi0 hi0sector hi0ptr)
    · exact fun hall => absurd hfor (hall m hm)
    · intro k h hfor' hb'
      obtain rfl := hs.disk.name_inj k m name hb'.1 hm hfor' hfor
      obtain rfl : entrySector e = h := hb.2.2.symm.trans hb'.2.2
      exact removeEffect_closed hs hb hfreed hj hjptr hjsector
  · intro hall
    rw [wp_pure]
    refine ⟨hs, hr, quiet_of_disk rfl (keepsInodes_of_eq rfl rfl), fun _ => rfl, ?_⟩
    intro k h hfor hb
    exact absurd hfor (hall k hb.1)

/-- **`filesys_remove`** frees the sectors of the file if nobody has it open, and else nothing. -/
theorem wp_filesysRemove (hs : Inv s []) (name : CString) :
    wp (filesysRemove name) s fun _ t => Inv t [] ∧ Quiet s t ∧
      ((∀ k < rootEntries, ¬ EntryFor (rootSlot s.disk k) name) → t.freeMap = s.freeMap) ∧
      ∀ k h, EntryFor (rootSlot s.disk k) name → Bound s.disk k h → RemoveEffect s t h := by
  have hs1 := inv_rootOpened hs
  rw [filesysRemove, wp_bind, wp_dirOpenRoot hs]
  rw [wp_bind]
  apply wp_mono (wp_dirRemove hs1 mem_rootOpened rfl name)
  rintro b t ⟨ht, hrt, hq, hnone, heffect⟩
  have hcount : List.count (rootInode s).ptr [(rootInode s).ptr] = 1 := List.count_singleton_self
  have ht' := inv_dropRoot ht hrt rfl hcount
  rw [List.erase_cons_head] at ht'
  rw [wp_bind, wp_dirClose ht hrt rfl hcount, wp_pure]
  refine ⟨ht', ((quiet_rootOpened hs).trans hq).trans (quiet_dropInode _), ?_, ?_⟩
  · intro hall
    rw [Fs.dropInode_freeMap, hnone hall, rootOpened_freeMap]
  · intro k h hfor hb
    have hne := hs.disk.bound_ne k h hb
    obtain ⟨hopen, hclosed⟩ := heffect k h hfor hb
    -- the root directory is not the file, so it plays no part in who has the file open
    have hsectors : h ∈ openSectors (rootOpened s) ↔ h ∈ openSectors s := by
      constructor
      · rintro ⟨j, hj, rfl⟩
        rcases List.mem_cons.1 hj with rfl | hj
        · exact absurd rfl hne.2
        · exact ⟨j, hj, rfl⟩
      · rintro ⟨j, hj, e⟩
        exact ⟨j, List.mem_cons_of_mem _ hj, e⟩
    constructor
    · intro hmem
      obtain ⟨hmap, j, hj, hjsector, hremoved⟩ := hopen (hsectors.2 hmem)
      refine ⟨hmap, j, mem_erase.2 ⟨hj, fun e => ?_⟩, hjsector, hremoved⟩
      obtain rfl := ht.heap.eq_of_ptr hj hrt e
      exact hne.2 hjsector.symm
    · intro hmem
      obtain ⟨hgone, htest⟩ := hclosed fun hm => hmem (hsectors.1 hm)
      refine ⟨?_, htest⟩
      rintro ⟨j, hj, hjsector⟩
      exact hgone ⟨j, (mem_erase.1 hj).1, hjsector⟩

end Pintos.Filesys.FileCalls
