import Pintos.Filesys.Accounts

/-!
# Open inodes and their handles

The inodes on the heap are shared by handles: the open files, and the references that the running
code holds between two calls, such as an open directory or an inode that is not yet wrapped in a
file. The latter are the list `held`. `HeapInv` states that the reference counts are exact, that no
two inodes share a sector, and that the free map file keeps its inode to itself. One lemma for each
change of the table says how the handles change with it.
-/

set_option autoImplicit false

namespace Pintos.Filesys.Handles

open Lib Lib.KeyedList Filesys.State Accounts List

/-- The file is the only one on its inode, which is that of the free map. -/
structure IsMapFile (inodes : List Inode) (files : List File) (f : File) : Prop where
  mem : f ∈ files
  allows : f.denyWrite = false
  inode : ∃ i ∈ inodes, i.ptr = f.inode ∧ i.sector = freeMapSector ∧ i.removed = false
  alone : ∀ g ∈ files, g.inode = f.inode → g = f

/-- The inodes and files on the heap are consistent, `held` being the pointers to inodes that the
running code holds. -/
structure HeapInv (inodes : List Inode) (files : List File) (next : Nat) (mapFile : Option Nat)
    (held : List Nat) : Prop extends Accounted inodes files next held where
  uniqueSector : Unique Inode.sector inodes
  openCnt_pos : ∀ i ∈ inodes, 0 < i.openCnt
  notRoot : ∀ f ∈ files, ∀ i ∈ inodes, i.ptr = f.inode → i.sector ≠ rootDirSector
  mapFile : ∃ f, mapFile = some f.ptr ∧ IsMapFile inodes files f

namespace HeapInv

variable {inodes inodes' : List Inode} {files files' : List File} {next next' : Nat}
  {mapFile : Option Nat} {held held' : List Nat} {i : Inode} {f : File}
  (hh : HeapInv inodes files next mapFile held)

include hh

theorem lookup_file (hf : f ∈ files) : lookup File.ptr files f.ptr = some f :=
  hh.uniqueFile.lookup_of_mem hf

theorem eq_of_ptr {j : Inode} (hi : i ∈ inodes) (hj : j ∈ inodes) (e : i.ptr = j.ptr) : i = j :=
  hh.uniquePtr.eq_of_key hi hj e

theorem file_inode (hf : f ∈ files) : ∃ i ∈ inodes, i.ptr = f.inode ∧ i.sector ≠ rootDirSector := by
  obtain ⟨i, hi, hptr⟩ := hh.inode_of_file hf
  exact ⟨i, hi, hptr, hh.notRoot f hf i hi hptr⟩

/-- The tables change, and the counters are right. Each inode that has a file was there before, with
its sector, and was marked as it is if it is that of the free map. -/
theorem setTables (haccounts : Accounted inodes' files' next' held')
    (hsector : Unique Inode.sector inodes') (hpos : ∀ j ∈ inodes', 0 < j.openCnt)
    (hback : ∀ f ∈ files', ∀ j ∈ inodes', j.ptr = f.inode → ∃ k ∈ inodes, k.ptr = j.ptr ∧
      k.sector = j.sector ∧ (k.sector = freeMapSector → k.removed = j.removed))
    (hfiles : ∀ f ∈ files', ∃ i ∈ inodes, i.ptr = f.inode ∧ i.sector ≠ rootDirSector)
    (hmap : ∃ f, mapFile = some f.ptr ∧ IsMapFile inodes files' f) :
    HeapInv inodes' files' next' mapFile held' := by
  refine ⟨haccounts, hsector, hpos, ?_, ?_⟩
  · intro f hf j hj hptr
    obtain ⟨k, hk, hkptr, hksector, -⟩ := hback f hf j hj hptr
    obtain ⟨i, hi, hiptr, hroot⟩ := hfiles f hf
    rwa [hh.eq_of_ptr hi hk (hiptr.trans (hkptr.trans hptr).symm), hksector] at hroot
  · obtain ⟨f, hf, hm⟩ := hmap
    obtain ⟨j, hj, hptr⟩ := haccounts.inode_of_file hm.mem
    obtain ⟨k, hk, hkptr, hksector, hkremoved⟩ := hback f hm.mem j hj hptr
    obtain ⟨i, hi, hiptr, hisector, hiremoved⟩ := hm.inode
    obtain rfl := hh.eq_of_ptr hi hk (hiptr.trans (hkptr.trans hptr).symm)
    exact ⟨f, hf, hm.mem, hm.allows, ⟨j, hj, hptr, hksector.symm.trans hisector,
      (hkremoved hisector).symm.trans hiremoved⟩, hm.alone⟩

/-! ## Changes of an inode -/

/-- One inode changes, and keeps its sector. -/
theorem mapInode {g : Inode → Inode} (hi : i ∈ inodes)
    (haccounts : Accounted (update Inode.ptr inodes i.ptr g) files' next' held')
    (hptr : ∀ j, (g j).ptr = j.ptr) (hsector : ∀ j, (g j).sector = j.sector)
    (hpos : 0 < (g i).openCnt) (hremoved : i.sector = freeMapSector → (g i).removed = i.removed)
    (hfiles : ∀ f ∈ files', ∃ i ∈ inodes, i.ptr = f.inode ∧ i.sector ≠ rootDirSector)
    (hmap : ∃ f, mapFile = some f.ptr ∧ IsMapFile inodes files' f) :
    HeapInv (update Inode.ptr inodes i.ptr g) files' next' mapFile held' := by
  refine hh.setTables haccounts (hh.uniqueSector.update hsector)
    (hh.uniquePtr.forall_update hi hpos hh.openCnt_pos) ?_ hfiles hmap
  intro f _ j hj _
  rcases (hh.uniquePtr.mem_update hi).1 hj with rfl | ⟨hj, -⟩
  · exact ⟨i, hi, (hptr i).symm, (hsector i).symm, fun e => (hremoved e).symm⟩
  · exact ⟨j, hj, rfl, rfl, fun _ => rfl⟩

/-- `inode_reopen` gives a reference to the caller. -/
theorem reopen (hi : i ∈ inodes) :
    HeapInv (update Inode.ptr inodes i.ptr fun j => { j with openCnt := j.openCnt + 1 }) files next
      mapFile (i.ptr :: held) :=
  hh.mapInode hi (hh.toAccounted.reopen hi) (fun _ => rfl) (fun _ => rfl)
    (Int.lt_add_one_of_le (hh.openCnt_pos i hi).le) (fun _ => rfl)
    (fun _ => hh.file_inode) hh.mapFile

/-- `inode_close` takes a reference that is not the last. -/
theorem unshare (hi : i ∈ inodes) (hp : i.ptr ∈ held) (hcnt : i.openCnt ≠ 1) :
    HeapInv (update Inode.ptr inodes i.ptr fun j => { j with openCnt := j.openCnt - 1 }) files next
      mapFile (held.erase i.ptr) := by
  have haccounts := hh.toAccounted.close hi hp
  rw [afterClose, if_neg hcnt] at haccounts
  refine hh.mapInode hi haccounts (fun _ => rfl) (fun _ => rfl) ?_ (fun _ => rfl)
    (fun _ => hh.file_inode) hh.mapFile
  have hpos := hh.openCnt_pos i hi
  show 0 < i.openCnt - 1
  omega

/-- `inode_remove` marks an inode that is not that of the free map. -/
theorem remove (hi : i ∈ inodes) (hsector : i.sector ≠ freeMapSector) :
    HeapInv (update Inode.ptr inodes i.ptr fun j => { j with removed := true }) files next mapFile
      held := by
  have haccounts := hh.toAccounted.setInode (u := fun j => { j with removed := true }) hi
    (fun _ => rfl) hh.uniqueFile hh.file_lt hh.pos_nonneg (hh.openCnt i hi) (hh.denyWriteCnt i hi)
    fun _ _ => ⟨rfl, rfl⟩
  exact hh.mapInode hi haccounts (fun _ => rfl) (fun _ => rfl) (hh.openCnt_pos i hi)
    (fun e => absurd e hsector) (fun _ => hh.file_inode) hh.mapFile

/-! ## New and dropped inodes -/

/-- `inode_open` of a sector that is not open. -/
theorem load (hptr : i.ptr = next) (hsector : lookup Inode.sector inodes i.sector = none)
    (hcnt : i.openCnt = 1) (hdeny : i.denyWriteCnt = 0) :
    HeapInv (i :: inodes) files (next + 1) mapFile (next :: held) := by
  refine hh.setTables (hh.toAccounted.load hptr hcnt hdeny)
    (unique_cons.2 ⟨lookup_eq_none_iff.1 hsector, hh.uniqueSector⟩)
    (forall_mem_cons.2 ⟨by omega, hh.openCnt_pos⟩) ?_ (fun _ => hh.file_inode) hh.mapFile
  intro f hf j hj hjptr
  rcases mem_cons.1 hj with rfl | hj
  · -- no file is on an inode that was not there
    obtain ⟨k, hk, hkptr⟩ := hh.inode_of_file hf
    have hlt := hh.inode_lt k hk
    omega
  · exact ⟨j, hj, rfl, rfl, fun _ => rfl⟩

/-- `inode_close` with the last reference. -/
theorem drop (hi : i ∈ inodes) (hp : i.ptr ∈ held) (hcnt : i.openCnt = 1) :
    HeapInv (KeyedList.erase Inode.ptr inodes i.ptr) files next mapFile (held.erase i.ptr) := by
  have haccounts := hh.toAccounted.close hi hp
  rw [afterClose, if_pos hcnt] at haccounts
  exact hh.setTables haccounts hh.uniqueSector.erase
    (fun j hj => hh.openCnt_pos j (mem_erase.1 hj).1)
    (fun _ _ j hj _ => ⟨j, (mem_erase.1 hj).1, rfl, rfl, fun _ => rfl⟩) (fun _ => hh.file_inode)
    hh.mapFile

/-! ## Files -/

/-- The files change, with the inodes as they are. -/
theorem mapFiles (haccounts : Accounted inodes files' next' held')
    (hfiles : ∀ f ∈ files', ∃ i ∈ inodes, i.ptr = f.inode ∧ i.sector ≠ rootDirSector)
    (hmap : ∃ f, mapFile = some f.ptr ∧ IsMapFile inodes files' f) :
    HeapInv inodes files' next' mapFile held' :=
  hh.setTables haccounts hh.uniqueSector hh.openCnt_pos
    (fun _ _ j hj _ => ⟨j, hj, rfl, rfl, fun _ => rfl⟩) hfiles hmap

/-- `file_open` turns a held reference into a file. -/
theorem openFile (hi : i ∈ inodes) (hp : i.ptr ∈ held) (hmap : i.sector ≠ freeMapSector)
    (hroot : i.sector ≠ rootDirSector) :
    HeapInv inodes (⟨next, i.ptr, 0, false⟩ :: files) (next + 1) mapFile (held.erase i.ptr) := by
  refine hh.mapFiles (hh.toAccounted.openFile hp)
    (forall_mem_cons.2 ⟨⟨i, hi, rfl, hroot⟩, fun _ => hh.file_inode⟩) ?_
  obtain ⟨f, hf, hm⟩ := hh.mapFile
  refine ⟨f, hf, mem_cons_of_mem _ hm.mem, hm.allows, hm.inode, ?_⟩
  intro g hg e
  rcases mem_cons.1 hg with rfl | hg
  · obtain ⟨j, hj, hjptr, hjsector, -⟩ := hm.inode
    obtain rfl := hh.eq_of_ptr hi hj (e.trans hjptr.symm)
    exact absurd hjsector hmap
  · exact hm.alone g hg e

/-- `file_close` frees a file other than that of the free map, which leaves its reference to the
inode to the running code. -/
theorem dropFile (hf : f ∈ files) (hmap : mapFile ≠ some f.ptr) (hallow : f.denyWrite = false) :
    HeapInv inodes (KeyedList.erase File.ptr files f.ptr) next mapFile (f.inode :: held) := by
  refine hh.mapFiles (hh.toAccounted.dropFile hf hallow)
    (fun g hg => hh.file_inode (mem_erase.1 hg).1) ?_
  obtain ⟨f0, hf0, hm⟩ := hh.mapFile
  have hne : f0.ptr ≠ f.ptr := fun e => hmap (hf0.trans (congrArg some e))
  exact ⟨f0, hf0, mem_erase.2 ⟨hm.mem, hne⟩, hm.allows, hm.inode,
    fun g hg => hm.alone g (mem_erase.1 hg).1⟩

/-- The files after one of them changes. -/
theorem mem_updateFile {g : File → File} (hf : f ∈ files) (f' : File) :
    f' ∈ update File.ptr files f.ptr g ↔ f' = g f ∨ (f' ∈ files ∧ f'.ptr ≠ f.ptr) :=
  hh.uniqueFile.mem_update hf

section

variable {g : File → File} (hptr : ∀ f, (g f).ptr = f.ptr) (hinode : ∀ f, (g f).inode = f.inode)
  (hf : f ∈ files) (hmap : mapFile ≠ some f.ptr)

include hinode hf

/-- The files are on the same inodes as before. -/
theorem file_inode_update :
    ∀ f' ∈ update File.ptr files f.ptr g, ∃ i ∈ inodes, i.ptr = f'.inode ∧
      i.sector ≠ rootDirSector :=
  hh.uniqueFile.forall_update hf (by rw [hinode]; exact hh.file_inode hf) fun _ => hh.file_inode

include hmap

/-- Changing a file other than that of the free map leaves the latter as it is. -/
theorem mapFile_update :
    ∃ f0, mapFile = some f0.ptr ∧ IsMapFile inodes (update File.ptr files f.ptr g) f0 := by
  obtain ⟨f0, hf0, hm⟩ := hh.mapFile
  have hne : f0.ptr ≠ f.ptr := fun e => hmap (hf0.trans (congrArg some e))
  refine ⟨f0, hf0, (hh.mem_updateFile hf f0).2 (.inr ⟨hm.mem, hne⟩), hm.allows, hm.inode, ?_⟩
  intro g' hg' e
  rcases (hh.mem_updateFile hf g').1 hg' with rfl | ⟨hg', -⟩
  · rw [hinode] at e
    exact absurd (congrArg File.ptr (hm.alone f hf e)).symm hne
  · exact hm.alone g' hg' e

include hptr

/-- Changing the position of a file. -/
theorem movePos (hdeny : ∀ f, (g f).denyWrite = f.denyWrite) (hpos : 0 ≤ (g f).pos) :
    HeapInv inodes (update File.ptr files f.ptr g) next mapFile held :=
  hh.mapFiles (hh.toAccounted.movePos hf hptr hinode hdeny hpos) (hh.file_inode_update hinode hf)
    (hh.mapFile_update hinode hf hmap)

/-- Changing whether a file denies writes, with the count of its inode. -/
theorem setDeny {u : Inode → Inode} (hpos : ∀ f, (g f).pos = f.pos)
    (huptr : ∀ j, (u j).ptr = j.ptr) (husector : ∀ j, (u j).sector = j.sector)
    (huopen : ∀ j, (u j).openCnt = j.openCnt) (huremoved : ∀ j, (u j).removed = j.removed)
    (hi : i ∈ inodes) (hif : i.ptr = f.inode)
    (hcnt : (u i).denyWriteCnt + (if f.denyWrite then 1 else 0) =
      i.denyWriteCnt + if (g f).denyWrite then 1 else 0) :
    HeapInv (update Inode.ptr inodes i.ptr u) (update File.ptr files f.ptr g) next mapFile held :=
  hh.mapInode hi
    (hh.toAccounted.setDeny hf hi hif hptr hinode hpos huptr huopen hcnt) huptr husector
    ((hh.openCnt_pos i hi).trans_eq (huopen i).symm) (fun _ => huremoved i)
    (hh.file_inode_update hinode hf) (hh.mapFile_update hinode hf hmap)

end

end HeapInv

end Pintos.Filesys.Handles
