import Mathlib.Data.List.GetD
import Pintos.Filesys.FileHandles
import Pintos.Filesys.Create

/-!
# Named files and their contents

What a user sees of the disk: names and the bytes of the files under them. `HasFile` reads this off
the disk, and `FileIs` says it in terms of the calls: opening the name and reading the file gives
the bytes. `filesys_create` adds a file and keeps the others, `file_write` on a new file extends the
bytes that have been written (`Writing`), and `file_close` keeps them all.
-/

set_option autoImplicit false

namespace Pintos.Filesys.NamedFiles

open Lib.KeyedList Lib.StateExcept Lib.ByteMemory LibKernel
open Filesys.State InodeIo Inode
open Filesys.File Directory Operations Layout
open Invariant Calls FileCalls
open FileHandles Create

/-- The inode in sector `h` has these bytes. -/
structure Stored (d : Bytes) (h : Nat) (data : List UInt8) : Prop where
  length : headerLength d h = data.length
  bytes : Holds d (sectorSize * headerStart d h) data

/-- Entry `k` of the root directory gives the name to the inode in sector `h`, which has these
bytes. -/
structure FileAt (d : Bytes) (k h : Nat) (name : CString) (data : List UInt8) : Prop where
  bound : Bound d k h
  entry : EntryFor (rootSlot d k) name
  stored : Stored d h data

/-- The name belongs to a file with these bytes. -/
def HasFile (d : Bytes) (name : CString) (data : List UInt8) : Prop := ∃ k h, FileAt d k h name data

/-- Opening the name and reading the file gives these bytes, and no more. -/
def FileIs (s : Fs) (name : CString) (data : List UInt8) : Prop :=
  wp (filesysOpen name) s fun r t => ∃ f, r = some f ∧
    wp (fileLength f) t (fun len _ => len = data.length) ∧
    ∀ buffer, wp (fileRead f buffer data.length) t fun r _ => r.1 = data.length ∧ Holds r.2 0 data

section Contents

variable {s t : Fs} {d d' : Bytes} {h k : Nat} {name : CString} {data : List UInt8} {f : File}
  {i : Inode}

/-- The bytes of an inode depend on its sectors only. -/
theorem Stored.congr (hst : Stored d h data) (ha : AgreeOn d d' (owned d h)) :
    Stored d' h data := by
  obtain ⟨hstart, hlength⟩ := header_congr fun j hj => ha h mem_owned j hj
  have hle := le_bytesToSectors (headerLength_lt d h)
  refine ⟨hlength.trans hst.length, ?_⟩
  rw [hstart]
  apply hst.bytes.congr
  intro j hj
  apply AgreeOn.data (ha.mono extent_subset)
  have hlen := hst.length
  omega

/-- A file is kept by a change that keeps its entry and its sectors. -/
theorem FileAt.congr (hf : FileAt d k h name data)
    (hslot : ∀ j < entrySize, rootSlot d' k j = rootSlot d k j) (ha : AgreeOn d d' (owned d h)) :
    FileAt d' k h name data := by
  refine ⟨⟨hf.bound.1, ?_, ?_⟩, ⟨?_, ?_⟩, hf.stored.congr ha⟩
  · rw [entryInUse_congr hslot]
    exact hf.bound.2.1
  · rw [entrySector_congr hslot]
    exact hf.bound.2.2
  · rw [entryInUse_congr hslot]
    exact hf.entry.1
  · rw [entryName_congr hslot]
    exact hf.entry.2

/-! ## Opening and reading -/

/-- The file `f` of a user is open on the inode `i`, which is not removed, at position `pos`. -/
structure Handle (s : Fs) (f : File) (i : Inode) (pos : Nat) : Prop where
  inv : Inv s []
  file : f ∈ s.files
  user : s.freeMapFile ≠ some f.ptr
  pos : f.pos = pos
  inode : i ∈ s.openInodes
  ptr : i.ptr = f.inode
  kept : i.removed = false

/-- The inode of the file has these bytes. -/
structure Reading (s : Fs) (f : File) (i : Inode) (data : List UInt8) (pos : Nat) : Prop
    extends Handle s f i pos where
  length : i.length = data.length
  bytes : Holds s.disk (sectorSize * i.start) data

/-- The inode of a name is not removed. -/
theorem removed_of_bound (he : OpenEffect s t h f i) (hb : Bound s.disk k h) :
    i.removed = false := by
  cases hremoved : i.removed with
  | false => rfl
  | true =>
    have hnameless := he.inv.nameless i he.inode hremoved
    rw [he.sector, he.disk] at hnameless
    exact absurd hb (hnameless.2 k)

theorem wp_filesysOpen_file (hs : Inv s []) (hfile : HasFile s.disk name data) :
    wp (filesysOpen name) s fun r t =>
      ∃ f i, r = some f.ptr ∧ Reading t f i data 0 ∧ t.disk = s.disk := by
  obtain ⟨k, h, hat⟩ := hfile
  apply wp_mono (wp_filesysOpen_bound hs hat.bound hat.entry)
  rintro r t ⟨f, i, rfl, he⟩
  obtain ⟨hstart, hlength⟩ := he.inv.data i he.inode
  rw [he.sector, he.disk] at hstart hlength
  refine ⟨f, i, rfl, ⟨⟨he.inv, he.file, he.user, he.pos, he.inode, he.ptr,
    removed_of_bound he hat.bound⟩, ?_, ?_⟩, he.disk⟩
  · exact hlength.trans hat.stored.length
  · rw [he.disk, hstart]
    exact hat.stored.bytes

theorem Handle.wp_fileLength {pos : Nat} (hh : Handle s f i pos) (Q : Int → Fs → Prop) :
    wp (fileLength f.ptr) s Q ↔ Q i.length s := by
  rw [fileLength, wp_bind, wp_derefFile (hh.inv.heap.lookup_file hh.file), wp_bind, ← hh.ptr,
    wp_derefInode (hh.inv.heap.lookup_inode hh.inode), wp_pure]

/-- `file_close` keeps the disk. -/
theorem Handle.wp_fileClose {pos : Nat} (hh : Handle s f i pos) :
    wp (fileClose (some f.ptr)) s fun _ t => Inv t [] ∧ t.disk = s.disk := by
  apply wp_mono (FileHandles.wp_fileClose hh.inv hh.file hh.user hh.inode hh.ptr)
  rintro _ t ⟨hinv, -, -, hdisk⟩
  exact ⟨hinv, hdisk hh.kept⟩

/-- `file_read` of bytes that are there. -/
theorem Reading.wp_fileRead (before chunk after : List UInt8)
    (hr : Reading s f i (before ++ (chunk ++ after)) before.length) (buffer : Nat → UInt8) :
    wp (fileRead f.ptr buffer chunk.length) s fun r t =>
      r.1 = chunk.length ∧ Holds r.2 0 chunk ∧ t.disk = s.disk ∧
        Reading t { f with pos := f.pos + chunk.length } i (before ++ (chunk ++ after))
          (before.length + chunk.length) := by
  have hlength := hr.length
  have hbytes := hr.bytes
  rw [List.length_append, List.length_append] at hlength
  have hcnt : transferCnt i chunk.length f.pos = chunk.length := by
    rw [transferCnt, hlength, hr.pos]
    omega
  have haddr : dataAddr i f.pos = sectorSize * i.start + before.length := by
    rw [dataAddr, hr.pos, Int.toNat_natCast]
  rw [holds_append, holds_append] at hbytes
  rw [FileHandles.wp_fileRead hr.inv hr.file hr.inode hr.ptr, hcnt, haddr]
  refine ⟨rfl, ?_, rfl, ⟨⟨inv_advanced hr.inv hr.file hr.user _, ?_, hr.user, ?_, hr.inode, hr.ptr,
    hr.kept⟩, hr.length, hr.bytes⟩⟩
  · rw [holds_iff]
    intro j hj
    dsimp only
    rw [Nat.zero_add, patch_inside (Nat.zero_le _) (by omega), Nat.sub_zero]
    exact holds_iff.1 hbytes.2.1 j hj
  · exact (hr.inv.heap.mem_updateFile hr.file _).2 (Or.inl rfl)
  · rw [hr.pos]
    rfl

theorem fileIs_of_hasFile (hs : Inv s []) (hfile : HasFile s.disk name data) :
    FileIs s name data := by
  apply wp_mono (wp_filesysOpen_file hs hfile)
  rintro r t ⟨f, i, rfl, hr, -⟩
  refine ⟨f.ptr, rfl, ?_, ?_⟩
  · rw [hr.wp_fileLength]
    exact hr.length
  · intro buffer
    have hwhole : [] ++ (data ++ []) = data := by rw [List.nil_append, List.append_nil]
    apply wp_mono (Reading.wp_fileRead [] data [] (hwhole.symm ▸ hr) buffer)
    rintro r u ⟨hcnt, hbytes, -, -⟩
    exact ⟨hcnt, hbytes⟩

/-! ## Creating -/

/-- What `filesys_create` does when it succeeds: the name, which was not in use, belongs to the
inode in sector `h`, which is not open, and the other files are kept. -/
structure NewFile (s t : Fs) (name : CString) (size : Int) (h : Nat) : Prop where
  inv : Inv t []
  named : ∃ k, Bound t.disk k h ∧ EntryFor (rootSlot t.disk k) name
  length : headerLength t.disk h = size
  closed : h ∉ openSectors t
  unused : ∀ k < rootEntries, ¬ EntryFor (rootSlot s.disk k) name
  others : ∀ k g, Bound s.disk k g → g ≠ h ∧
    (∀ j < entrySize, rootSlot t.disk k j = rootSlot s.disk k j) ∧
    AgreeOn s.disk t.disk (owned s.disk g)

/-- The data of a new inode is cleared, whatever its sectors held. -/
theorem stored_created {i0 : Inode} {size : Int} {held : List Nat} (hc : Created s i0 size held)
    (hlt : size < 2 ^ 31) :
    Stored (created s i0 size).disk (headerSector s) (List.replicate size.toNat 0) := by
  obtain ⟨hstart, hlength⟩ := header_created hc hlt
  have hle := le_bytesToSectors hlt
  refine ⟨?_, holds_iff.2 ?_⟩
  · rw [hlength, List.length_replicate, Int.toNat_of_nonneg hc.size_nonneg]
  · intro j hj
    rw [List.length_replicate] at hj
    rw [hstart, List.getD_replicate _ hj]
    show patch _ _ (sectorSize * bytesToSectors size) (fun _ => 0) _ = _
    rw [patch_inside (Nat.le_add_right ..) (by omega)]

theorem wlp_filesysCreate_file {size : Int} (hs : Inv s []) (hlt : size < 2 ^ 31) :
    wlp (filesysCreate name size) s fun b t => b = true →
      ∃ h, NewFile s t name size h ∧ Stored t.disk h (List.replicate size.toNat 0) := by
  refine wlp_filesysCreate_cases hs hlt name (fun _ _ _ hfalse => by cases hfalse) ?_
  intro i0 hc k hk e hsector hentry hfree hunused ht heffect _
  -- before the entry is written, the entries are those of `s`
  have hslots : ∀ k < rootEntries, ∀ j < entrySize,
      rootSlot (created (rootOpened s) i0 size).disk k j = rootSlot s.disk k j :=
        hc.beside.layout.slot
  have hwritten : ∀ k' j, j < entrySize → rootSlot (named s i0 size k e).disk k' j =
      if k' = k then e j else rootSlot (created (rootOpened s) i0 size).disk k' j :=
    fun k' j hj => hc.inv.disk.writeEntry_slot hk e hj
  have hnew : ∀ j < entrySize, rootSlot (named s i0 size k e).disk k j = e j := by
    intro j hj
    rw [hwritten k j hj, if_pos rfl]
  have hnotLive := hc.reserved.not_live
  refine ⟨headerSector (rootOpened s), ⟨ht, ⟨k, ⟨hk, ?_, ?_⟩, ?_, ?_⟩, ?_, ?_, ?_, ?_⟩, ?_⟩
  · rw [entryInUse_congr hnew]
    exact hentry.1
  · rw [entrySector_congr hnew]
    exact hsector
  · rw [entryInUse_congr hnew]
    exact hentry.1
  · rw [entryName_congr hnew]
    exact hentry.2
  · have hheader := hc.inv.disk.writeEntry_header hk e (hc.reserved.not_data live_root)
    exact hheader.2.trans (header_created hc hlt).2
  · rintro ⟨i, hi, hisector⟩
    exact hnotLive (live_opened ⟨i, (mem_erase.1 hi).1, hisector⟩)
  · intro k' hk' hfor
    apply hfree k' hk'
    rw [EntryFor, entryInUse_congr (hslots k' hk'), entryName_congr (hslots k' hk')]
    exact hfor
  · intro k' g hb
    have hb' : Bound (created (rootOpened s) i0 size).disk k' g := hc.beside.layout.bound_iff.2 hb
    have hne : k' ≠ k := by
      rintro rfl
      rw [hb'.2.1] at hunused
      cases hunused
    refine ⟨?_, ?_, ?_⟩
    · rintro rfl
      exact hnotLive (live_bound hb')
    · intro j hj
      rw [hwritten k' j hj, if_neg hne]
      exact hslots k' hb.1 j hj
    · obtain ⟨hmap, hroot⟩ := hs.disk.bound_ne k' g hb
      exact heffect.untouched.data g (live_bound hb) hmap hroot
  · -- the entry is written into the data of the root directory
    apply (stored_created hc hlt).congr
    apply (hc.inv.disk.writeEntry_agree hk e).mono
    exact ((hc.reserved.disjoint _ live_root).mono_right extent_subset).subset_compl_right

/-! ## Writing -/

/-- The inode of the file has `size` bytes, and those up to the position are `written`. -/
structure Writing (s : Fs) (f : File) (i : Inode) (size : Nat) (written : List UInt8) : Prop
    extends Handle s f i written.length where
  allows : i.denyWriteCnt = 0
  length : i.length = size
  bytes : Holds s.disk (sectorSize * i.start) written

variable {f : File} {i : Inode} {size : Nat} {written chunk : List UInt8}

/-- The data sectors of an open inode. -/
theorem extent_of_open (hs : Inv s []) (hi : i ∈ s.openInodes) :
    extent s.disk i.sector = { x | i.start ≤ x ∧ x < i.start + bytesToSectors i.length } := by
  obtain ⟨hstart, hlength⟩ := hs.data i hi
  rw [hstart, hlength]
  rfl

/-- `file_write` of the next bytes. -/
theorem Writing.wp_fileWrite (hw : Writing s f i size written)
    (hfits : written.length + chunk.length ≤ size) {block : Nat → UInt8}
    (hblock : Holds block 0 chunk) :
    wp (fileWrite f.ptr block chunk.length) s fun n t => n = chunk.length ∧
      Writing t { f with pos := f.pos + chunk.length } i size (written ++ chunk) ∧
      AgreeOn s.disk t.disk (extent s.disk i.sector)ᶜ := by
  have hcnt : transferCnt i chunk.length f.pos = chunk.length := by
    rw [transferCnt, hw.length, hw.pos]
    omega
  have haddr : dataAddr i f.pos = sectorSize * i.start + written.length := by
    rw [dataAddr, hw.pos, Int.toNat_natCast]
  have hinv := inv_written hw.inv hw.file hw.user hw.inode hw.ptr block chunk.length
  have hagree := written_agree hw.inv hw.file hw.inode block chunk.length
  rw [hcnt] at hinv hagree
  rw [FileHandles.wp_fileWrite hw.inv hw.file hw.inode hw.ptr hw.allows, hcnt]
  refine ⟨rfl, ⟨⟨inv_advanced hinv hw.file hw.user _, ?_, hw.user, ?_, hw.inode, hw.ptr, hw.kept⟩,
    hw.allows, hw.length, ?_⟩, hagree⟩
  · exact (hinv.heap.mem_updateFile hw.file _).2 (Or.inl rfl)
  · rw [List.length_append, hw.pos]
    rfl
  · -- the new bytes come after the old ones
    show Holds (patch s.disk (dataAddr i f.pos) chunk.length block) _ _
    rw [holds_append, haddr]
    constructor
    · apply hw.bytes.congr
      intro j hj
      exact patch_outside (Or.inl (by omega))
    · rw [holds_iff]
      intro j hj
      have hbyte := holds_iff.1 hblock j hj
      rw [Nat.zero_add] at hbyte
      rw [patch_inside (by omega) (by omega), Nat.add_sub_cancel_left, hbyte]

/-- What is written to an open file keeps the entries of the root directory and the other files. -/
theorem bound_of_written (hs : Inv s []) (hi : i ∈ s.openInodes) (hroot : i.sector ≠ rootDirSector)
    (ha : AgreeOn s.disk d' (extent s.disk i.sector)ᶜ) {g : Nat} (hb : Bound s.disk k g) :
    (∀ j < entrySize, rootSlot d' k j = rootSlot s.disk k j) ∧
      (g ≠ i.sector → AgreeOn s.disk d' (owned s.disk g)) := by
  have hlive := live_of_open hi
  refine ⟨(hs.disk.sameLayout_of_data hlive hroot ha).slot k hb.1, ?_⟩
  intro hne
  apply ha.mono
  intro x hx hmem
  exact Set.disjoint_left.1 (hs.disk.disjoint _ _ (live_bound hb) hlive hne) hx (extent_subset hmem)

/-- Once all bytes are written, the file has them. -/
theorem Writing.stored (hw : Writing s f i data.length data) : Stored s.disk i.sector data := by
  obtain ⟨hstart, hlength⟩ := hw.inv.data i hw.inode
  refine ⟨hlength.symm.trans hw.length, ?_⟩
  rw [← hstart]
  exact hw.bytes

end Contents

end Pintos.Filesys.NamedFiles
