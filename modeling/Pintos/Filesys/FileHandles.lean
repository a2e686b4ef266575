import Pintos.Filesys.FileCalls

/-!
# Open files

The functions of `filesys/file.c` on open files, from a consistent state and for a file other than
that of the free map. None of their assertions fails, and each leads to a consistent state.
`file_write` is the only one that changes the data of a file, and `file_close` the only one that
frees sectors, those of a removed inode with its last handle.
-/

set_option autoImplicit false

namespace Pintos.Filesys.FileHandles

open Lib.KeyedList Lib.StateExcept Lib.ByteMemory LibKernel
open Filesys.State InodeIo FreeMap Inode
open Filesys.File Layout Accounts Handles Invariant
open Calls FileCalls

variable {s : Fs} {held : List Nat} {i i0 : Inode} {f : File}

/-! ## Denying and allowing writes -/

/-- The inode of a file other than that of the free map: neither that of the free map nor the root
directory. -/
theorem inode_of_user (hs : Inv s held) (hf : f ∈ s.files) (hmap : s.freeMapFile ≠ some f.ptr) :
    ∃ i ∈ s.openInodes, i.ptr = f.inode ∧ i.sector ≠ freeMapSector ∧ i.sector ≠ rootDirSector := by
  obtain ⟨i, hi, hptr, hroot⟩ := hs.heap.file_inode hf
  refine ⟨i, hi, hptr, ?_, hroot⟩
  intro hsector
  obtain ⟨f0, i0, hf0, hm, hi0, hi0ptr, hi0sector, -, -⟩ := hs.mapInode
  obtain rfl := hs.heap.uniqueSector.eq_of_key hi hi0 (hsector.trans hi0sector.symm)
  obtain rfl := hm.alone f hf (hptr.symm.trans hi0ptr)
  exact hmap hf0

/-- The state with a file that denies writes. -/
def denying (s : Fs) (f : File) : Fs :=
  (s.mapFile f.ptr fun g => { g with denyWrite := true }).mapInode f.inode
    fun j => { j with denyWriteCnt := j.denyWriteCnt + 1 }

/-- The state with a file that allows writes again. -/
def allowing (s : Fs) (f : File) : Fs :=
  (s.mapFile f.ptr fun g => { g with denyWrite := false }).mapInode f.inode
    fun j => { j with denyWriteCnt := j.denyWriteCnt - 1 }

theorem quiet_mapFile (p : Nat) (g : File → File) : Quiet s (s.mapFile p g) :=
  quiet_of_disk rfl (keepsInodes_of_eq rfl rfl)

theorem quiet_mapInode {p : Nat} {g : Inode → Inode} (hg : ∀ j, SameInode j (g j)) :
    Quiet s (s.mapInode p g) :=
  quiet_of_disk rfl (keepsInodes_mapInode hg)

theorem quiet_denying : Quiet s (denying s f) :=
  (quiet_mapFile _ _).trans (quiet_mapInode fun _ => ⟨rfl, rfl, rfl, rfl, id⟩)

theorem quiet_allowing : Quiet s (allowing s f) :=
  (quiet_mapFile _ _).trans (quiet_mapInode fun _ => ⟨rfl, rfl, rfl, rfl, id⟩)

theorem quiet_reopened (p : Nat) : Quiet s (reopened s p) :=
  quiet_mapInode fun _ => ⟨rfl, rfl, rfl, rfl, id⟩

theorem inv_denying (hs : Inv s held) (hf : f ∈ s.files) (hmap : s.freeMapFile ≠ some f.ptr)
    (hdeny : f.denyWrite = false) : Inv (denying s f) held := by
  obtain ⟨i, hi, hptr, -⟩ := inode_of_user hs hf hmap
  rw [denying, ← hptr]
  refine hs.setDeny (fun _ => rfl) (fun _ => rfl) (fun _ => rfl) (fun _ => rfl) (fun _ => rfl)
    (fun _ => rfl) (fun _ => rfl) (fun _ => rfl) (fun _ => rfl) hf hmap hi hptr ?_
  simp [hdeny]

theorem inv_allowing (hs : Inv s held) (hf : f ∈ s.files) (hmap : s.freeMapFile ≠ some f.ptr)
    (hdeny : f.denyWrite = true) : Inv (allowing s f) held := by
  obtain ⟨i, hi, hptr, -⟩ := inode_of_user hs hf hmap
  rw [allowing, ← hptr]
  refine hs.setDeny (fun _ => rfl) (fun _ => rfl) (fun _ => rfl) (fun _ => rfl) (fun _ => rfl)
    (fun _ => rfl) (fun _ => rfl) (fun _ => rfl) (fun _ => rfl) hf hmap hi hptr ?_
  simp [hdeny]

/-- `file_deny_write` never fails its assertion. -/
theorem wp_fileDenyWrite (hs : Inv s held) (hf : f ∈ s.files) (hmap : s.freeMapFile ≠ some f.ptr)
    (Q : Unit → Fs → Prop) :
    wp (fileDenyWrite f.ptr) s Q ↔ Q () (if f.denyWrite then s else denying s f) := by
  obtain ⟨i, hi, hptr, -⟩ := inode_of_user hs hf hmap
  rw [fileDenyWrite, wp_bind, wp_derefFile (hs.heap.lookup_file hf)]
  cases hdeny : f.denyWrite with
  | true => rw [if_pos rfl, wp_pure, if_pos rfl]
  | false =>
    have hs' := inv_denying hs hf hmap hdeny
    have hmem : { i with denyWriteCnt := i.denyWriteCnt + 1 } ∈ (denying s f).openInodes := by
      rw [denying, ← hptr]
      exact (hs.heap.uniquePtr.mem_update hi).2 (.inl rfl)
    have hlookup := hs'.heap.lookup_inode hmem
    have hle := hs'.heap.deny_le_open hmem
    rw [if_neg Bool.false_ne_true, if_neg Bool.false_ne_true, wp_bind,
      wp_updateFile, inodeDenyWrite,
      wp_bind, wp_updateInode, ← denying, wp_bind, ← hptr, wp_derefInode hlookup, wp_check]
    exact and_iff_right hle

/-- `file_allow_write` never fails its assertions. -/
theorem wp_fileAllowWrite (hs : Inv s held) (hf : f ∈ s.files) (hmap : s.freeMapFile ≠ some f.ptr)
    (Q : Unit → Fs → Prop) :
    wp (fileAllowWrite f.ptr) s Q ↔ Q () (if f.denyWrite then allowing s f else s) := by
  obtain ⟨i, hi, hptr, -⟩ := inode_of_user hs hf hmap
  rw [fileAllowWrite, wp_bind, wp_derefFile (hs.heap.lookup_file hf)]
  cases hdeny : f.denyWrite with
  | true =>
    have hpos : 0 < i.denyWriteCnt := by
      rw [hs.heap.denyWriteCnt i hi]
      exact_mod_cast List.countP_pos_iff.2 ⟨f, hf, by simp [hptr, hdeny]⟩
    have hlookup : lookup Inode.ptr s.openInodes f.inode = some i := hptr ▸ hs.heap.lookup_inode hi
    rw [if_pos rfl, if_pos rfl, wp_bind, wp_updateFile, inodeAllowWrite, wp_bind,
      wp_derefInode (s := s.mapFile f.ptr _) hlookup, wp_bind, wp_check, wp_updateInode]
    exact and_iff_right ⟨hpos, hs.heap.deny_le_open hi⟩
  | false => rw [if_neg Bool.false_ne_true, if_neg Bool.false_ne_true, wp_pure]

/-! ## Closing -/

theorem closed_dropFile (p : Nat) : (closed s i i0).dropFile p = closed (s.dropFile p) i i0 := by
  unfold closed
  split
  · split <;> rfl
  · rfl

/-- What `file_close` does, `i` being the inode of the file: with the last handle the inode is gone,
and its sectors are freed if it was removed. -/
structure CloseEffect (s t : Fs) (i : Inode) : Prop where
  gone : i.openCnt = 1 → ∀ j ∈ t.openInodes, j.ptr ≠ i.ptr
  freed : i.openCnt = 1 → i.removed = true →
    ∀ x, t.freeMap.test x = true ↔ s.freeMap.test x = true ∧ x ∉ owned s.disk i.sector
  kept : i.openCnt ≠ 1 ∨ i.removed = false → t.freeMap = s.freeMap

theorem closeEffect (hs : Inv s held) (hi : i ∈ s.openInodes) (i0 : Inode) :
    CloseEffect s (closed s i i0) i where
  gone := by
    intro hcnt j hj
    rcases (mem_closed hs hi).1 hj with ⟨-, hne⟩ | ⟨hne, -⟩
    · exact hne
    · exact absurd hcnt hne
  freed := by
    intro hcnt hremoved x
    have hmem : x ∈ owned s.disk i.sector ↔
        x = i.sector ∨ (i.start ≤ x ∧ x < i.start + bytesToSectors i.length) := by
      rw [(hs.data i hi).1, (hs.data i hi).2]
      exact Iff.rfl
    rw [closed_freeMap, if_pos ⟨hcnt, hremoved⟩, test_freedMap (freeable hs hi), hmem]
    by_cases hx : x = i.sector ∨ (i.start ≤ x ∧ x < i.start + bytesToSectors i.length)
    · simp [hx]
    · simp [hx]
  kept := by
    intro h
    rw [closed_freeMap, if_neg]
    rintro ⟨hcnt, hremoved⟩
    rcases h with h | h
    · exact h hcnt
    · rw [hremoved] at h
      cases h

/-- Closing the inode of a file that is not removed leaves the disk as it is. -/
theorem closed_disk (hkept : i.removed = false) : (closed s i i0).disk = s.disk := by
  unfold closed
  split
  · rw [if_neg (by simp [hkept])]
    rfl
  · rfl

/-- The last steps of `file_close`, of a file that denies no writes. -/
theorem wp_close_allowing (hs : Inv s []) (hf : f ∈ s.files) (hmap : s.freeMapFile ≠ some f.ptr)
    (hdeny : f.denyWrite = false) (hi : i ∈ s.openInodes) (hptr : i.ptr = f.inode)
    (hsector : i.sector ≠ freeMapSector) :
    wp (do
        let g ← derefFile f.ptr
        inodeClose (some g.inode)
        modify fun s => s.dropFile f.ptr) s fun _ t =>
      Inv t [] ∧ Quiet s t ∧ CloseEffect s t i ∧ (i.removed = false → t.disk = s.disk) := by
  obtain ⟨i0, hi0, hi0sector, hi0ptr, hm⟩ := mapInode_of hs hi hsector
  -- the file's reference is given up by the call
  have hs1 := hs.dropFile hf hmap hdeny
  have hp : i.ptr ∈ [f.inode] := hptr ▸ List.mem_cons_self
  have hs2 := inv_closed (s := s.dropFile f.ptr) hs1 hi hp hi0 hi0sector hi0ptr
  rw [hptr, List.erase_cons_head] at hs2
  rw [wp_bind, wp_derefFile (hs.heap.lookup_file hf), wp_bind, ← hptr,
    wp_inodeClose hs.failures (hs.heap.lookup_inode hi) hm hi0ptr (freeable hs hi), wp_modify,
    closed_dropFile]
  have hdrop : Quiet s (s.dropFile f.ptr) := quiet_of_disk rfl (keepsInodes_of_eq rfl rfl)
  have heffect := closeEffect (s := s.dropFile f.ptr) hs1 hi i0
  exact ⟨hs2, hdrop.trans (quiet_closed (s := s.dropFile f.ptr) hs1 hi hp hi0 hi0sector hi0ptr),
    ⟨heffect.gone, heffect.freed, heffect.kept⟩, closed_disk⟩

/-- **`file_close`.** The disk stays as it is unless the file is removed. -/
theorem wp_fileClose (hs : Inv s []) (hf : f ∈ s.files) (hmap : s.freeMapFile ≠ some f.ptr)
    (hi : i ∈ s.openInodes) (hptr : i.ptr = f.inode) :
    wp (fileClose (some f.ptr)) s fun _ t =>
      Inv t [] ∧ Quiet s t ∧ CloseEffect s t i ∧ (i.removed = false → t.disk = s.disk) := by
  obtain ⟨i', hi', hptr', hsector, -⟩ := inode_of_user hs hf hmap
  obtain rfl := hs.heap.eq_of_ptr hi hi' (hptr.trans hptr'.symm)
  rw [fileClose, wp_bind, wp_fileAllowWrite hs hf hmap]
  cases hdeny : f.denyWrite with
  | false =>
    exact wp_close_allowing hs hf hmap hdeny hi hptr hsector
  | true =>
    have hs1 := inv_allowing hs hf hmap hdeny
    have hf1 : { f with denyWrite := false } ∈ (allowing s f).files :=
      (hs.heap.mem_updateFile hf _).2 (.inl rfl)
    have hi1 : { i with denyWriteCnt := i.denyWriteCnt - 1 } ∈ (allowing s f).openInodes := by
      rw [allowing, ← hptr]
      exact (hs.heap.uniquePtr.mem_update hi).2 (.inl rfl)
    apply wp_mono (wp_close_allowing hs1 hf1 hmap rfl hi1 hptr hsector)
    rintro _ t ⟨ht, hqt, heffect, hdisk⟩
    exact ⟨ht, quiet_allowing.trans hqt, ⟨heffect.gone, heffect.freed, heffect.kept⟩, hdisk⟩

/-! ## More handles -/

/-- A second file on the inode of a file. -/
theorem inv_reopenedFile (hs : Inv s []) (hi : i ∈ s.openInodes)
    (hsector : i.sector ≠ freeMapSector)
    (hroot : i.sector ≠ rootDirSector) : Inv ((reopened s i.ptr).addFile i.ptr) [] := by
  have hi1 : { i with openCnt := i.openCnt + 1 } ∈ (reopened s i.ptr).openInodes :=
    (hs.heap.uniquePtr.mem_update hi).2 (.inl rfl)
  have hs2 := (hs.reopened hi).openFile hi1 List.mem_cons_self hsector hroot
  rwa [List.erase_cons_head] at hs2

theorem quiet_reopenedFile (p : Nat) : Quiet s ((reopened s p).addFile p) :=
  (quiet_reopened p).trans (quiet_addFile p)

/-- **`file_reopen`.** -/
theorem wp_fileReopen (hs : Inv s []) (hf : f ∈ s.files) (hmap : s.freeMapFile ≠ some f.ptr) :
    wp (fileReopen f.ptr) s fun _ t =>
      Inv t [] ∧ Quiet s t ∧ t.freeMap = s.freeMap ∧ t.disk = s.disk := by
  obtain ⟨i, hi, hptr, hsector, hroot⟩ := inode_of_user hs hf hmap
  rw [fileReopen, wp_bind, wp_derefFile (hs.heap.lookup_file hf), wp_bind, wp_inodeReopen, ← hptr,
    wp_fileOpen (hs.reopened hi).failures]
  exact ⟨inv_reopenedFile hs hi hsector hroot, quiet_reopenedFile _, rfl, rfl⟩

/-- The second half of `file_duplicate`: the new file gets the position and the flag of the old
one. -/
theorem wp_copyAttributes {g : File} (hs : Inv s []) (hg : g ∈ s.files)
    (hmap : s.freeMapFile ≠ some g.ptr) (hallow : g.denyWrite = false) {pos : Int} (hpos : 0 ≤ pos)
    (deny : Bool) :
    wp (do
        updateFile g.ptr fun g => { g with pos := pos }
        if deny then
          fileDenyWrite g.ptr
        return some g.ptr) s fun _ t =>
      Inv t [] ∧ Quiet s t ∧ t.freeMap = s.freeMap ∧ t.disk = s.disk := by
  have hs1 := hs.movePos (g := fun g => { g with pos := pos }) (fun _ => rfl) (fun _ => rfl)
    (fun _ => rfl) hg hmap hpos
  have hg1 : { g with pos := pos } ∈ (s.mapFile g.ptr fun g => { g with pos := pos }).files :=
    (hs.heap.mem_updateFile (g := fun g => { g with pos := pos }) hg _).2 (.inl rfl)
  rw [wp_bind, wp_updateFile]
  cases deny with
  | false =>
    rw [if_neg Bool.false_ne_true, wp_pure]
    exact ⟨hs1, quiet_mapFile _ _, rfl, rfl⟩
  | true =>
    rw [hallow] at hg1
    have hdeny := wp_fileDenyWrite hs1 hg1 hmap
    rw [if_pos rfl, wp_bind, hdeny, wp_pure]
    exact ⟨inv_denying hs1 hg1 hmap rfl, (quiet_mapFile _ _).trans quiet_denying, rfl, rfl⟩

/-- **`file_duplicate`.** -/
theorem wp_fileDuplicate (hs : Inv s []) (hf : f ∈ s.files) (hmap : s.freeMapFile ≠ some f.ptr) :
    wp (fileDuplicate f.ptr) s fun _ t =>
      Inv t [] ∧ Quiet s t ∧ t.freeMap = s.freeMap ∧ t.disk = s.disk := by
  obtain ⟨i, hi, hptr, hsector, hroot⟩ := inode_of_user hs hf hmap
  have hs1 := inv_reopenedFile hs hi hsector hroot
  have hnew : s.freeMapFile ≠ some s.nextPtr := by
    obtain ⟨f0, hf0, hm⟩ := hs.heap.mapFile
    have hlt := hs.heap.file_lt f0 hm.mem
    rw [hf0]
    intro e
    rw [Option.some.inj e] at hlt
    exact lt_irrefl _ hlt
  have hcopy :=
    wp_copyAttributes hs1 (g := ⟨s.nextPtr, i.ptr, 0, false⟩) List.mem_cons_self hnew rfl
    (hs.heap.pos_nonneg f hf) f.denyWrite
  rw [fileDuplicate, wp_bind, wp_derefFile (hs.heap.lookup_file hf), wp_bind,
    wp_inodeReopen, wp_bind, ← hptr, wp_fileOpen (hs.reopened hi).failures]
  apply wp_mono hcopy
  rintro _ t ⟨ht, hq, hmap', hdisk⟩
  exact ⟨ht, (quiet_reopenedFile _).trans hq, hmap', hdisk⟩

/-! ## Reading, writing and seeking -/

/-- The state in which a file has moved on by `n` bytes. -/
def advanced (s : Fs) (f : File) (n : Nat) : Fs :=
  s.mapFile f.ptr fun g => { g with pos := g.pos + n }

theorem inv_advanced (hs : Inv s held) (hf : f ∈ s.files)
    (hmap : s.freeMapFile ≠ some f.ptr) (n : Nat) : Inv (advanced s f n) held := by
  have hpos := hs.heap.pos_nonneg f hf
  refine hs.movePos (fun _ => rfl) (fun _ => rfl) (fun _ => rfl) hf hmap ?_
  show 0 ≤ f.pos + n
  omega

section

variable (hs : Inv s []) (hf : f ∈ s.files) (hi : i ∈ s.openInodes) (hptr : i.ptr = f.inode)
include hs hf hi hptr

/-- **`file_read`** returns the bytes from the position on, up to the end of the inode. -/
theorem wp_fileRead (buffer : Nat → UInt8) (size : Int) (Q : Nat × (Nat → UInt8) → Fs → Prop) :
    wp (fileRead f.ptr buffer size) s Q ↔
      Q (transferCnt i size f.pos, patch buffer 0 (transferCnt i size f.pos)
        fun j => s.disk (dataAddr i f.pos + j)) (advanced s f (transferCnt i size f.pos)) := by
  have hlookup : lookup Inode.ptr s.openInodes f.inode = some i := hptr ▸ hs.heap.lookup_inode hi
  rw [fileRead, wp_bind, wp_derefFile (hs.heap.lookup_file hf), wp_bind,
    wp_inodeReadAt hs.failures hlookup (hs.dataOnDisk hi) (hs.heap.pos_nonneg f hf)]
  rw [wp_bind, wp_updateFile, wp_pure]
  exact Iff.rfl

/-- **`file_write`** replaces the bytes from the position on, up to the end of the inode, unless
writes are denied. -/
theorem wp_fileWrite (hdeny : i.denyWriteCnt = 0) (buffer : Nat → UInt8) (size : Int)
    (Q : Nat → Fs → Prop) :
    wp (fileWrite f.ptr buffer size) s Q ↔ Q (transferCnt i size f.pos)
      (advanced (s.patchDisk (dataAddr i f.pos) (transferCnt i size f.pos) buffer) f
        (transferCnt i size f.pos)) := by
  have hlookup : lookup Inode.ptr s.openInodes f.inode = some i := hptr ▸ hs.heap.lookup_inode hi
  rw [fileWrite, wp_bind, wp_derefFile (hs.heap.lookup_file hf), wp_bind,
    wp_inodeWriteAt hs.failures hlookup (hs.dataOnDisk hi) (hs.heap.pos_nonneg f hf) hdeny, wp_bind,
    wp_updateFile, wp_pure]
  exact Iff.rfl

theorem wp_fileWrite_denied (hdeny : i.denyWriteCnt ≠ 0) (buffer : Nat → UInt8) (size : Int)
    (Q : Nat → Fs → Prop) : wp (fileWrite f.ptr buffer size) s Q ↔ Q 0 (advanced s f 0) := by
  have hlookup : lookup Inode.ptr s.openInodes f.inode = some i := hptr ▸ hs.heap.lookup_inode hi
  rw [fileWrite, wp_bind, wp_derefFile (hs.heap.lookup_file hf), wp_bind,
    wp_inodeWriteAt_denied hlookup hdeny, wp_bind, wp_updateFile, wp_pure]
  exact Iff.rfl

end

/-- Writing a file of a user keeps the state consistent. -/
theorem inv_written (hs : Inv s held) (hf : f ∈ s.files) (hmap : s.freeMapFile ≠ some f.ptr)
    (hi : i ∈ s.openInodes) (hptr : i.ptr = f.inode) (buffer : Nat → UInt8) (size : Int) :
    Inv (s.patchDisk (dataAddr i f.pos) (transferCnt i size f.pos) buffer) held := by
  obtain ⟨i', hi', hptr', hsector, hroot⟩ := inode_of_user hs hf hmap
  obtain rfl := hs.heap.eq_of_ptr hi hi' (hptr.trans hptr'.symm)
  by_cases hzero : transferCnt i size f.pos = 0
  · rw [hzero, Fs.patchDisk_zero]
    exact hs
  · exact hs.writeData hi hsector hroot (hs.transfer_le hi (hs.heap.pos_nonneg f hf) hzero)

/-- Writing a file changes the data sectors of its inode only. -/
theorem written_agree (hs : Inv s held) (hf : f ∈ s.files) (hi : i ∈ s.openInodes)
    (buffer : Nat → UInt8) (size : Int) :
    AgreeOn s.disk (s.patchDisk (dataAddr i f.pos) (transferCnt i size f.pos) buffer).disk
      (extent s.disk i.sector)ᶜ := by
  by_cases hzero : transferCnt i size f.pos = 0
  · rw [hzero, Fs.patchDisk_zero]
    exact fun _ _ _ _ => rfl
  · exact hs.writeData_agree hi (hs.transfer_le hi (hs.heap.pos_nonneg f hf) hzero)

/-- `file_seek`. -/
theorem wp_fileSeek (p : Nat) {newPos : Int} (h0 : 0 ≤ newPos) (Q : Unit → Fs → Prop) :
    wp (fileSeek p newPos) s Q ↔ Q () (s.mapFile p fun g => { g with pos := newPos }) := by
  rw [fileSeek, wp_bind, wp_check, wp_updateFile]
  exact and_iff_right h0

end Pintos.Filesys.FileHandles
