import Pintos.Filesys.Inode

/-!
# The accounts of the inodes

What the two counters of an inode count: `open_cnt` the references to it and `deny_write_cnt` the
handles that deny writes. `Accounted` says so of a table of inodes, and one lemma for each change
that the code makes to the tables says that it still holds.
-/

set_option autoImplicit false

namespace Pintos.Filesys.Accounts

open Lib.KeyedList Filesys.State List

/-- The number of open files on an inode. -/
def fileCnt (files : List File) (ptr : Nat) : Nat := files.countP fun f => f.inode = ptr

/-- The number of open files on an inode that deny writes to it. -/
def denyCnt (files : List File) (ptr : Nat) : Nat :=
  files.countP fun f => decide (f.inode = ptr) && f.denyWrite

/-- The references to an inode: its files, and the pointers that the running code holds. -/
def refCnt (files : List File) (held : List Nat) (p : Nat) : Nat := fileCnt files p + held.count p

/-- The counters of the inodes are right. -/
structure Accounted (inodes : List Inode) (files : List File) (next : Nat) (held : List Nat) :
    Prop where
  uniquePtr : Unique Inode.ptr inodes
  uniqueFile : Unique File.ptr files
  inode_lt : ∀ i ∈ inodes, i.ptr < next
  file_lt : ∀ f ∈ files, f.ptr < next
  openCnt : ∀ i ∈ inodes, i.openCnt = refCnt files held i.ptr
  denyWriteCnt : ∀ i ∈ inodes, i.denyWriteCnt = denyCnt files i.ptr
  present : ∀ p, 0 < refCnt files held p → ∃ i ∈ inodes, i.ptr = p
  pos_nonneg : ∀ f ∈ files, 0 ≤ f.pos

/-- The table of inodes after `inode_close`. -/
def afterClose (inodes : List Inode) (i : Inode) : List Inode :=
  if i.openCnt = 1 then erase Inode.ptr inodes i.ptr
  else update Inode.ptr inodes i.ptr fun j => { j with openCnt := j.openCnt - 1 }

section Accounts

variable {inodes : List Inode} {files files' : List File} {next next' : Nat} {held held' : List Nat}
  {i : Inode} {f : File}

theorem denyCnt_le_fileCnt (files : List File) (ptr : Nat) :
    denyCnt files ptr ≤ fileCnt files ptr := by
  apply countP_mono_left
  intro f _ hf
  rw [Bool.and_eq_true] at hf
  exact hf.1

/-- An inode with a file on it is counted at least once. -/
theorem fileCnt_pos (hf : f ∈ files) : 0 < fileCnt files f.inode :=
  countP_pos_iff.2 ⟨f, hf, by simp⟩

namespace Accounted

variable (h : Accounted inodes files next held)

include h

theorem lookup_inode (hi : i ∈ inodes) : lookup Inode.ptr inodes i.ptr = some i :=
  h.uniquePtr.lookup_of_mem hi

theorem inode_of_file (hf : f ∈ files) : ∃ i ∈ inodes, i.ptr = f.inode :=
  h.present f.inode (Nat.add_pos_left (fileCnt_pos hf) _)

theorem inode_of_held {p : Nat} (hp : p ∈ held) : ∃ i ∈ inodes, i.ptr = p :=
  h.present p (Nat.add_pos_right _ (count_pos_iff.2 hp))

theorem deny_le_open (hi : i ∈ inodes) : i.denyWriteCnt ≤ i.openCnt := by
  have hle := denyCnt_le_fileCnt files i.ptr
  rw [h.denyWriteCnt i hi, h.openCnt i hi, refCnt]
  omega

/-- The files change, and no inode gets or loses a reference or a denial. -/
theorem setFiles (hunique : Unique File.ptr files') (hlt : ∀ f ∈ files', f.ptr < next')
    (hnext : next ≤ next') (hpos : ∀ f ∈ files', 0 ≤ f.pos)
    (href : ∀ p, refCnt files' held' p = refCnt files held p)
    (hdeny : ∀ p, denyCnt files' p = denyCnt files p) : Accounted inodes files' next' held' where
  uniquePtr := h.uniquePtr
  uniqueFile := hunique
  inode_lt := fun i hi => (h.inode_lt i hi).trans_le hnext
  file_lt := hlt
  openCnt := fun i hi => by rw [href, h.openCnt i hi]
  denyWriteCnt := fun i hi => by rw [hdeny, h.denyWriteCnt i hi]
  present := fun p hp => h.present p (by rwa [href] at hp)
  pos_nonneg := hpos

/-- One inode changes, with its counters as its references and denials. -/
theorem setInode {u : Inode → Inode} (hi : i ∈ inodes) (huptr : ∀ j, (u j).ptr = j.ptr)
    (hunique : Unique File.ptr files') (hlt : ∀ f ∈ files', f.ptr < next)
    (hpos : ∀ f ∈ files', 0 ≤ f.pos) (hopen : (u i).openCnt = refCnt files' held' i.ptr)
    (hdeny : (u i).denyWriteCnt = denyCnt files' i.ptr)
    (hothers : ∀ p, p ≠ i.ptr → refCnt files' held' p = refCnt files held p ∧
      denyCnt files' p = denyCnt files p) :
    Accounted (update Inode.ptr inodes i.ptr u) files' next held' := by
  have hmem : ∀ j, j ∈ update Inode.ptr inodes i.ptr u ↔ j = u i ∨ (j ∈ inodes ∧ j.ptr ≠ i.ptr) :=
    fun j => h.uniquePtr.mem_update hi
  constructor
  case uniquePtr => exact h.uniquePtr.update huptr
  case uniqueFile => exact hunique
  case inode_lt =>
    exact h.uniquePtr.forall_update hi ((huptr i).trans_lt (h.inode_lt i hi)) h.inode_lt
  case file_lt => exact hlt
  case openCnt =>
    intro j hj
    rcases (hmem j).1 hj with rfl | ⟨hj, hne⟩
    · rw [huptr, hopen]
    · rw [(hothers _ hne).1, h.openCnt j hj]
  case denyWriteCnt =>
    intro j hj
    rcases (hmem j).1 hj with rfl | ⟨hj, hne⟩
    · rw [huptr, hdeny]
    · rw [(hothers _ hne).2, h.denyWriteCnt j hj]
  case present =>
    intro p hp
    by_cases hpi : p = i.ptr
    · exact ⟨u i, (hmem _).2 (Or.inl rfl), (huptr i).trans hpi.symm⟩
    · rw [(hothers p hpi).1] at hp
      obtain ⟨j, hj, rfl⟩ := h.present p hp
      exact ⟨j, (hmem j).2 (Or.inr ⟨hj, hpi⟩), rfl⟩
  case pos_nonneg => exact hpos

/-- `inode_reopen`. -/
theorem reopen (hi : i ∈ inodes) :
    Accounted
      (update Inode.ptr inodes i.ptr fun j => { j with openCnt := j.openCnt + 1 }) files next
      (i.ptr :: held) := by
  refine h.setInode hi (fun _ => rfl) h.uniqueFile h.file_lt h.pos_nonneg ?_
    (h.denyWriteCnt i hi) ?_
  · have hopen := h.openCnt i hi
    rw [refCnt] at hopen
    rw [refCnt, count_cons_self]
    push_cast at hopen ⊢
    omega
  · intro p hp
    rw [refCnt, refCnt, count_cons_of_ne fun e => hp e.symm]
    exact ⟨rfl, rfl⟩

/-- `inode_close` of a held reference. -/
theorem close (hi : i ∈ inodes) (hp : i.ptr ∈ held) :
    Accounted (afterClose inodes i) files next (held.erase i.ptr) := by
  have hopen := h.openCnt i hi
  have hcount : 0 < held.count i.ptr := count_pos_iff.2 hp
  have hself : refCnt files (held.erase i.ptr) i.ptr + 1 = refCnt files held i.ptr := by
    rw [refCnt, refCnt, count_erase_self]
    omega
  have hothers : ∀ p, p ≠ i.ptr → refCnt files (held.erase i.ptr) p = refCnt files held p := by
    intro p hne
    rw [refCnt, refCnt, count_erase_of_ne hne]
  by_cases hlast : i.openCnt = 1
  · -- the last reference: nothing refers to the inode any more
    have hzero : refCnt files (held.erase i.ptr) i.ptr = 0 := by omega
    rw [afterClose, if_pos hlast]
    constructor
    case uniquePtr => exact h.uniquePtr.erase
    case uniqueFile => exact h.uniqueFile
    case inode_lt => exact fun j hj => h.inode_lt j (mem_erase.1 hj).1
    case file_lt => exact h.file_lt
    case openCnt =>
      intro j hj
      obtain ⟨hj, hne⟩ := mem_erase.1 hj
      rw [hothers _ hne, h.openCnt j hj]
    case denyWriteCnt => exact fun j hj => h.denyWriteCnt j (mem_erase.1 hj).1
    case present =>
      intro p hpos
      have hne : p ≠ i.ptr := by
        rintro rfl
        rw [hzero] at hpos
        cases hpos
      rw [hothers p hne] at hpos
      obtain ⟨j, hj, rfl⟩ := h.present p hpos
      exact ⟨j, mem_erase.2 ⟨hj, hne⟩, rfl⟩
    case pos_nonneg => exact h.pos_nonneg
  · rw [afterClose, if_neg hlast]
    refine h.setInode hi (fun _ => rfl) h.uniqueFile h.file_lt h.pos_nonneg ?_ (h.denyWriteCnt i hi)
      fun p hne => ⟨hothers p hne, rfl⟩
    show i.openCnt - 1 = _
    omega

/-- `inode_open` of a sector that is not open. -/
theorem load (hptr : i.ptr = next) (hcnt : i.openCnt = 1) (hdeny : i.denyWriteCnt = 0) :
    Accounted (i :: inodes) files (next + 1) (next :: held) := by
  have hnew : ∀ j ∈ inodes, j.ptr ≠ i.ptr := by
    intro j hj
    have hlt := h.inode_lt j hj
    omega
  -- nothing can refer to a pointer that was not handed out
  have hnone : refCnt files held next = 0 := by
    by_contra hne
    obtain ⟨j, hj, hjp⟩ := h.present next (Nat.pos_of_ne_zero hne)
    exact hnew j hj (hjp.trans hptr.symm)
  have hothers : ∀ p, p ≠ next → refCnt files (next :: held) p = refCnt files held p := by
    intro p hp
    rw [refCnt, refCnt, count_cons_of_ne fun e => hp e.symm]
  constructor
  case uniquePtr => exact unique_cons.2 ⟨hnew, h.uniquePtr⟩
  case uniqueFile => exact h.uniqueFile
  case inode_lt =>
    intro j hj
    rcases mem_cons.1 hj with rfl | hj
    · omega
    · exact Nat.lt_succ_of_lt (h.inode_lt j hj)
  case file_lt => exact fun f hf => Nat.lt_succ_of_lt (h.file_lt f hf)
  case openCnt =>
    intro j hj
    rcases mem_cons.1 hj with rfl | hj
    · rw [hptr, hcnt, refCnt, count_cons_self]
      rw [refCnt] at hnone
      omega
    · rw [hothers _ fun e => hnew j hj (e.trans hptr.symm), h.openCnt j hj]
  case denyWriteCnt =>
    intro j hj
    rcases mem_cons.1 hj with rfl | hj
    · have hle := denyCnt_le_fileCnt files j.ptr
      rw [hptr] at hle ⊢
      rw [refCnt] at hnone
      omega
    · exact h.denyWriteCnt j hj
  case present =>
    intro p hp
    by_cases hpn : p = next
    · exact ⟨i, mem_cons_self, hptr.trans hpn.symm⟩
    · rw [hothers p hpn] at hp
      obtain ⟨j, hj, hjp⟩ := h.present p hp
      exact ⟨j, mem_cons_of_mem i hj, hjp⟩
  case pos_nonneg => exact h.pos_nonneg

/-- `file_open` turns a held reference into a file. -/
theorem openFile {p : Nat} (hp : p ∈ held) :
    Accounted inodes (⟨next, p, 0, false⟩ :: files) (next + 1) (held.erase p) := by
  have hcount : 0 < held.count p := count_pos_iff.2 hp
  refine h.setFiles ?_ ?_ (Nat.le_succ next) ?_ ?_ ?_
  · refine unique_cons.2 ⟨?_, h.uniqueFile⟩
    intro f hf
    exact (h.file_lt f hf).ne
  · intro f hf
    rcases mem_cons.1 hf with rfl | hf
    · exact Nat.lt_succ_self next
    · exact Nat.lt_succ_of_lt (h.file_lt f hf)
  · intro f hf
    rcases mem_cons.1 hf with rfl | hf
    · exact le_refl _
    · exact h.pos_nonneg f hf
  · intro q
    rw [refCnt, refCnt, fileCnt, countP_cons]
    by_cases hq : p = q
    · subst hq
      rw [count_erase_self]
      simp only [decide_true, if_true, fileCnt]
      omega
    · rw [count_erase_of_ne fun e => hq e.symm]
      simp [hq, fileCnt]
  · intro q
    rw [denyCnt, denyCnt, countP_cons]
    simp

/-- A file that does not deny writes is freed, and leaves its reference to the running code. -/
theorem dropFile (hf : f ∈ files) (hallow : f.denyWrite = false) :
    Accounted inodes (erase File.ptr files f.ptr) next (f.inode :: held) := by
  refine h.setFiles h.uniqueFile.erase (fun g hg => h.file_lt g (mem_erase.1 hg).1) (le_refl next)
    (fun g hg => h.pos_nonneg g (mem_erase.1 hg).1) ?_ ?_
  · intro p
    have hcnt := h.uniqueFile.countP_erase (p := fun g => decide (g.inode = p)) hf
    rw [refCnt, refCnt, count_cons]
    simp only [fileCnt, beq_iff_eq, decide_eq_true_eq] at hcnt ⊢
    omega
  · intro p
    have hcnt := h.uniqueFile.countP_erase (p := fun g => decide (g.inode = p) && g.denyWrite) hf
    simp only [hallow, Bool.and_false] at hcnt
    simpa [denyCnt] using hcnt

/-- The position of a file changes. -/
theorem movePos {g : File → File} (hf : f ∈ files) (hptr : ∀ f, (g f).ptr = f.ptr)
    (hinode : ∀ f, (g f).inode = f.inode) (hdeny : ∀ f, (g f).denyWrite = f.denyWrite)
    (hpos : 0 ≤ (g f).pos) : Accounted inodes (update File.ptr files f.ptr g) next held := by
  refine h.setFiles (h.uniqueFile.update hptr) ?_ (le_refl next) ?_ ?_ ?_
  · exact h.uniqueFile.forall_update hf ((hptr f).trans_lt (h.file_lt f hf)) h.file_lt
  · exact h.uniqueFile.forall_update hf hpos h.pos_nonneg
  · intro p
    rw [refCnt, refCnt, fileCnt, countP_update fun f => by simp only [hinode], fileCnt]
  · intro p
    rw [denyCnt, countP_update fun f => by simp only [hinode, hdeny], denyCnt]

/-- The flag of a file changes together with the counter of its inode. -/
theorem setDeny {g : File → File} {u : Inode → Inode} (hf : f ∈ files) (hi : i ∈ inodes)
    (hif : i.ptr = f.inode) (hptr : ∀ f, (g f).ptr = f.ptr) (hinode : ∀ f, (g f).inode = f.inode)
    (hpos : ∀ f, (g f).pos = f.pos) (huptr : ∀ j, (u j).ptr = j.ptr)
    (huopen : ∀ j, (u j).openCnt = j.openCnt)
    (hcnt : (u i).denyWriteCnt + (if f.denyWrite then 1 else 0) =
      i.denyWriteCnt + if (g f).denyWrite then 1 else 0) :
    Accounted (update Inode.ptr inodes i.ptr u) (update File.ptr files f.ptr g) next held := by
  have hfileCnt : ∀ p, fileCnt (update File.ptr files f.ptr g) p = fileCnt files p := by
    intro p
    rw [fileCnt, countP_update fun f => by simp only [hinode], fileCnt]
  have hdenyCnt : ∀ p, _ := fun p =>
    h.uniqueFile.countP_update (p := fun f => decide (f.inode = p) && f.denyWrite) (f := g) hf
  simp only [hinode] at hdenyCnt
  refine h.setInode hi huptr (h.uniqueFile.update hptr) ?_ ?_ ?_ ?_ ?_
  · exact h.uniqueFile.forall_update hf ((hptr f).trans_lt (h.file_lt f hf)) h.file_lt
  · exact h.uniqueFile.forall_update hf ((h.pos_nonneg f hf).trans_eq (hpos f).symm) h.pos_nonneg
  · rw [huopen, h.openCnt i hi, refCnt, refCnt, hfileCnt]
  · have hcount := hdenyCnt i.ptr
    have hold := h.denyWriteCnt i hi
    simp only [hif, decide_true, Bool.true_and, denyCnt] at hcount hold ⊢
    split_ifs at hcount hcnt <;> omega
  · intro p hp
    have hcount := hdenyCnt p
    have hfp : ¬ f.inode = p := fun e => hp (e.symm.trans hif.symm)
    rw [refCnt, refCnt, hfileCnt]
    simp only [hfp, decide_false, Bool.false_and, denyCnt] at hcount ⊢
    exact ⟨trivial, by simpa using hcount⟩

end Accounted

end Accounts

end Pintos.Filesys.Accounts
