import Pintos.Filesys.Accounts
import Pintos.Filesys.File
import Pintos.Lib.Runs

/-!
# Denied writes

The counters of an inode against the flags of its handles, for any sequence of calls of `file.c`, on
any inodes, whatever allocations fail and whatever is on the disk. Every call keeps `Accounted`.
What the calls do to the disk and the free map does not matter for that: `Quiet` code leaves the
inodes and files as they are.
-/

set_option autoImplicit false

namespace Pintos.Filesys.DenyWrites

open Lib Lib.KeyedList Lib.StateExcept Lib.Runs LibKernel List
open Filesys.State InodeIo FreeMap Inode
open Filesys.File Accounts

/-! ## Code that leaves the heap alone -/

/-- The inodes, the files and the next pointer. -/
def heap (s : Fs) : List Inode × List File × Nat := (s.openInodes, s.files, s.nextPtr)

theorem heap_eq {s : Fs} {is : List Inode} {fs : List File} {p : Nat} (h : heap s = (is, fs, p)) :
    s.openInodes = is ∧ s.files = fs ∧ s.nextPtr = p := by
  cases h
  exact ⟨rfl, rfl, rfl⟩

/-- An error that is not one of the assertions on the counter of denied writes. -/
def Unrelated (e : Panic) : Prop := e ≠ .denyWriteCnt ∧ e ≠ .allowWriteCnt

/-- From every state, the code leaves the heap as it is, or stops with an unrelated error. -/
def Quiet {α : Type} (x : FsM α) : Prop := ∀ s, ends x s (fun _ t => heap t = heap s) Unrelated

section Quiet

variable {α β : Type}

theorem quiet_pure (a : α) : Quiet (pure a : FsM α) := fun _ => rfl

theorem Quiet.bind {x : FsM α} {f : α → FsM β} (hx : Quiet x) (hf : ∀ a, Quiet (f a)) :
    Quiet (x >>= f) := by
  intro s
  rw [ends_bind]
  refine ends_imp (hx s) ?_
  intro a t ht
  refine ends_imp (hf a t) ?_
  intro b u hu
  exact hu.trans ht

theorem quiet_ite (c : Prop) [Decidable c] {x y : FsM α} (hx : Quiet x) (hy : Quiet y) :
    Quiet (if c then x else y) := by
  by_cases hc : c
  · rwa [if_pos hc]
  · rwa [if_neg hc]

theorem quiet_get : Quiet (get : FsM Fs) := fun _ => rfl

theorem quiet_modify {f : Fs → Fs} (hf : ∀ s, heap (f s) = heap s) : Quiet (modify f : FsM Unit) :=
  fun s => hf s

theorem quiet_throw {e : Panic} (he : Unrelated e) : Quiet (throw e : FsM α) := fun _ => he

theorem quiet_check (p : Prop) [Decidable p] {e : Panic} (he : Unrelated e) :
    Quiet (check p e : FsM Unit) := by
  intro s
  rw [ends_check]
  exact ⟨fun _ => rfl, fun _ => he⟩

theorem quiet_malloc : Quiet malloc := by
  intro s
  cases hf : s.failures with
  | nil => simp [malloc, hf]
  | cons fails rest =>
    simp only [malloc, ends_bind, ends_get, hf]
    rfl

theorem quiet_derefInode (p : Nat) : Quiet (derefInode p) := by
  refine quiet_get.bind fun s => ?_
  cases lookup Inode.ptr s.openInodes p with
  | none => exact quiet_throw ⟨Panic.noConfusion, Panic.noConfusion⟩
  | some i => exact quiet_pure i

theorem quiet_derefFile (p : Nat) : Quiet (derefFile p) := by
  refine quiet_get.bind fun s => ?_
  cases lookup File.ptr s.files p with
  | none => exact quiet_throw ⟨Panic.noConfusion, Panic.noConfusion⟩
  | some f => exact quiet_pure f

theorem quiet_selectSector (sector : Nat) : Quiet (selectSector sector) :=
  quiet_get.bind fun _ => (quiet_check _ ⟨Panic.noConfusion, Panic.noConfusion⟩).bind fun _ =>
    quiet_check _ ⟨Panic.noConfusion, Panic.noConfusion⟩

theorem quiet_diskRead (sector : Nat) : Quiet (diskRead sector) :=
  (quiet_selectSector sector).bind fun _ => quiet_get.bind fun _ => quiet_pure _

theorem quiet_diskWrite (sector : Nat) (block : Nat → UInt8) : Quiet (diskWrite sector block) :=
  (quiet_selectSector sector).bind fun _ => quiet_modify fun _ => rfl

theorem quiet_bounceBuffer (bounce : Bool) : Quiet (bounceBuffer bounce) :=
  quiet_ite _ (quiet_pure true) quiet_malloc

theorem quiet_writeChunk (i : Inode) (offset chunk : Int) (bounce : Bool) (data : Nat → UInt8) :
    Quiet (writeChunk i offset chunk bounce data) := by
  refine quiet_ite _ ((quiet_diskWrite _ _).bind fun _ => quiet_pure _) ?_
  refine (quiet_bounceBuffer bounce).bind fun bounce => quiet_ite _ ?_ (quiet_pure none)
  refine Quiet.bind (quiet_ite _ (quiet_diskRead _) (quiet_pure _)) fun block => ?_
  exact (quiet_diskWrite _ _).bind fun _ => quiet_pure _

theorem quiet_writeLoop (i : Inode) (buffer : Nat → UInt8) (fuel : Nat) (size offset : Int)
    (done : Nat) (bounce : Bool) : Quiet (writeLoop i buffer fuel size offset done bounce) := by
  induction fuel generalizing size offset done bounce with
  | zero => exact quiet_pure done
  | succ fuel ih =>
    refine quiet_ite _ (quiet_pure done) (quiet_ite _ (quiet_pure done) ?_)
    refine (quiet_writeChunk _ _ _ _ _).bind fun r => ?_
    cases r with
    | none => exact quiet_pure done
    | some bounce => exact ih _ _ _ _

theorem quiet_inodeWriteAt (p : Nat) (buffer : Nat → UInt8) (size offset : Int) :
    Quiet (inodeWriteAt p buffer size offset) :=
  (quiet_derefInode p).bind fun i => quiet_ite _ (quiet_pure 0) (quiet_writeLoop i buffer _ _ _ _ _)

theorem quiet_bitmapWrite (file : Nat) : Quiet (bitmapWrite file) := by
  refine quiet_get.bind fun s => Quiet.bind ?_ fun _ => quiet_pure _
  exact (quiet_derefFile file).bind fun f => quiet_inodeWriteAt _ _ _ _

theorem quiet_freeMapRelease (sector cnt : Nat) : Quiet (freeMapRelease sector cnt) := by
  refine quiet_get.bind fun s => ?_
  refine (quiet_check _ ⟨Panic.noConfusion, Panic.noConfusion⟩).bind fun _ => ?_
  refine (quiet_check _ ⟨Panic.noConfusion, Panic.noConfusion⟩).bind fun _ => ?_
  refine Quiet.bind (quiet_modify fun _ => rfl) fun _ => quiet_get.bind fun s => ?_
  cases s.freeMapFile with
  | none => exact quiet_throw ⟨Panic.noConfusion, Panic.noConfusion⟩
  | some file => exact (quiet_bitmapWrite file).bind fun _ => quiet_pure _

end Quiet

/-! ## The calls -/

section Calls

variable {s : Fs} {held : List Nat} {i : Inode} {f : File} {p : Nat} {offset size : Int}
  {buffer : Nat → UInt8}

theorem ends_malloc (Q : Bool → Fs → Prop) (E : Panic → Prop) :
    ends malloc s Q E ↔ Q (!s.allocFails) s.afterAlloc := by
  cases hf : s.failures with
  | nil =>
    have hsame : s.afterAlloc = s := by rw [Fs.afterAlloc, hf, tail_nil, ← hf]
    rw [hsame, Fs.allocFails, hf]
    simp [malloc, hf]
  | cons fails rest =>
    simp only [malloc, ends_bind, ends_get, hf, Fs.allocFails, Fs.afterAlloc]
    rfl

theorem ends_newPtr (Q : Nat → Fs → Prop) (E : Panic → Prop) :
    ends newPtr s Q E ↔ Q s.nextPtr { s with nextPtr := s.nextPtr + 1 } :=
  Iff.rfl

theorem ends_derefInode (hi : lookup Inode.ptr s.openInodes p = some i) (Q : Inode → Fs → Prop)
    (E : Panic → Prop) : ends (derefInode p) s Q E ↔ Q i s := by
  simp [derefInode, hi]

theorem ends_derefFile (hf : lookup File.ptr s.files p = some f) (Q : File → Fs → Prop)
    (E : Panic → Prop) : ends (derefFile p) s Q E ↔ Q f s := by
  simp [derefFile, hf]

/-- `inode_close`, up to the disk and the free map. -/
theorem ends_inodeClose (hi : lookup Inode.ptr s.openInodes p = some i) :
    ends (inodeClose (some p)) s
      (fun _ t => heap t = (afterClose s.openInodes i, s.files, s.nextPtr)) Unrelated := by
  obtain rfl := key_of_lookup hi
  have hlookup : lookup Inode.ptr
    (s.mapInode i.ptr fun j => { j with openCnt := j.openCnt - 1 }).openInodes
      i.ptr = some { i with openCnt := i.openCnt - 1 } :=
    lookup_update_self (fun _ => rfl) hi
  simp only [inodeClose, ends_bind]
  rw [updateInode, ends_modify, ends_derefInode hlookup]
  by_cases hlast : i.openCnt = 1
  · have hzero : i.openCnt - 1 = 0 := by omega
    have hdrop : heap
      ((s.mapInode i.ptr fun j => { j with openCnt := j.openCnt - 1 }).dropInode i.ptr) =
        (afterClose s.openInodes i, s.files, s.nextPtr) := by
      rw [afterClose, if_pos hlast]
      exact congrArg (fun l => (l, s.files, s.nextPtr)) (erase_update fun _ => rfl)
    rw [if_pos hzero, ends_bind, ends_modify]
    have hrelease : Quiet (if i.removed = true then do
        freeMapRelease i.sector 1
        freeMapRelease i.start (bytesToSectors i.length) else pure ()) :=
      quiet_ite _
        ((quiet_freeMapRelease _ _).bind fun _ => quiet_freeMapRelease _ _) (quiet_pure ())
    exact ends_imp (hrelease _) (fun _ t ht => ht.trans hdrop)
  · have hnot : ¬ i.openCnt - 1 = 0 := by omega
    rw [if_neg hnot, ends_pure, afterClose, if_neg hlast]
    rfl

/-- `file_open` with a held reference: a new file, or the reference is given back. -/
theorem ends_fileOpen (hi : lookup Inode.ptr s.openInodes p = some i) :
    ends (fileOpen (some p)) s (fun r t =>
      r = none ∧ heap t = (afterClose s.openInodes i, s.files, s.nextPtr) ∨
      r = some s.nextPtr ∧ heap t =
        (s.openInodes, ⟨s.nextPtr, p, 0, false⟩ :: s.files, s.nextPtr + 1)) Unrelated := by
  rw [fileOpen, ends_bind, ends_malloc]
  cases s.allocFails with
  | true =>
    simp only [Bool.not_true, ends_bind]
    refine ends_imp (ends_inodeClose (s := s.afterAlloc) hi) ?_
    intro _ t ht
    exact .inl ⟨rfl, ht⟩
  | false =>
    exact .inr ⟨rfl, rfl⟩

/-- The accounts of a heap. -/
def Ok (h : List Inode × List File × Nat) (held : List Nat) : Prop := Accounted h.1 h.2.1 h.2.2 held

section

variable (h : Ok (heap s) held)
include h

/-- `inode_reopen` and `file_open`, as `file_reopen` and `file_duplicate` call them. -/
theorem ends_reopenFile (hi : i ∈ s.openInodes) :
    ends (inodeReopen (some i.ptr) >>= fileOpen) s (fun r t => Ok (heap t) held ∧
      ∀ g, r = some g → g = s.nextPtr ∧
        t.files = ⟨s.nextPtr, i.ptr, 0, false⟩ :: s.files) Unrelated := by
  have hreopened := h.reopen hi
  have hlookup : lookup Inode.ptr
    (s.mapInode i.ptr fun j => { j with openCnt := j.openCnt + 1 }).openInodes
      i.ptr = some { i with openCnt := i.openCnt + 1 } :=
    lookup_update_self (fun _ => rfl) (h.lookup_inode hi)
  have hheld : (i.ptr :: held).erase i.ptr = held := erase_cons_head ..
  refine ends_imp (ends_fileOpen hlookup) ?_
  rintro r t (⟨rfl, ht⟩ | ⟨rfl, ht⟩)
  · refine ⟨?_, fun g hg => by cases hg⟩
    have hclosed := hreopened.close (mem_of_lookup hlookup) mem_cons_self
    rw [hheld] at hclosed
    rw [ht]
    exact hclosed
  · refine ⟨?_, ?_⟩
    · have hopened := hreopened.openFile mem_cons_self
      rw [hheld] at hopened
      rw [ht]
      exact hopened
    · intro g hg
      cases hg
      exact ⟨rfl, (heap_eq ht).2.1⟩

/-- `file_deny_write`. Its assertion holds, as the file is a reference to the inode. -/
theorem ends_fileDenyWrite (hf : f ∈ s.files) (E : Panic → Prop) :
    ends (fileDenyWrite f.ptr) s (fun _ t => Ok (heap t) held ∧
      ∃ g ∈ t.files, g.ptr = f.ptr ∧ g.inode = f.inode ∧ g.denyWrite = true) E := by
  rw [fileDenyWrite, ends_bind, ends_derefFile (h.uniqueFile.lookup_of_mem hf)]
  cases hdeny : f.denyWrite with
  | true =>
    exact ⟨h, f, hf, rfl, rfl, hdeny⟩
  | false =>
    obtain ⟨i, hi, hif⟩ := h.inode_of_file hf
    have hset := h.setDeny (g := fun f => { f with denyWrite := true })
      (u := fun j => { j with denyWriteCnt := j.denyWriteCnt + 1 }) hf hi hif (fun _ => rfl)
      (fun _ => rfl) (fun _ => rfl) (fun _ => rfl) (fun _ => rfl) (by simp [hdeny])
    have hlookup : lookup Inode.ptr
      ((s.mapFile f.ptr fun f => { f with denyWrite := true }).mapInode
        f.inode fun j => { j with denyWriteCnt := j.denyWriteCnt + 1 }).openInodes f.inode =
        some { i with denyWriteCnt := i.denyWriteCnt + 1 } :=
      lookup_update_self (fun _ => rfl) (hif ▸ h.lookup_inode hi)
    rw [hif] at hset
    have hle := hset.deny_le_open (mem_of_lookup hlookup)
    rw [if_neg Bool.false_ne_true]
    simp only [ends_bind, updateFile, ends_modify, inodeDenyWrite, updateInode]
    rw [ends_derefInode hlookup, ends_check]
    refine ⟨fun _ => ⟨hset, { f with denyWrite := true }, ?_, rfl, rfl, rfl⟩,
      fun hnot => absurd hle hnot⟩
    exact (h.uniqueFile.mem_update hf).2 (.inl rfl)

/-- `file_allow_write`. Its assertions hold, as the file is one that denies writes. -/
theorem ends_fileAllowWrite (hf : f ∈ s.files) (E : Panic → Prop) :
    ends (fileAllowWrite f.ptr) s (fun _ t => Ok (heap t) held ∧
      { f with denyWrite := false } ∈ t.files) E := by
  rw [fileAllowWrite, ends_bind, ends_derefFile (h.uniqueFile.lookup_of_mem hf)]
  cases hdeny : f.denyWrite with
  | false =>
    rw [if_neg Bool.false_ne_true, ends_pure, ← hdeny]
    exact ⟨h, hf⟩
  | true =>
    obtain ⟨i, hi, hif⟩ := h.inode_of_file hf
    have hset := h.setDeny (g := fun f => { f with denyWrite := false })
      (u := fun j => { j with denyWriteCnt := j.denyWriteCnt - 1 }) hf hi hif (fun _ => rfl)
      (fun _ => rfl) (fun _ => rfl) (fun _ => rfl) (fun _ => rfl) (by simp [hdeny])
    have hlookup : lookup Inode.ptr
      (s.mapFile f.ptr fun f => { f with denyWrite := false }).openInodes
        f.inode = some i := hif ▸ h.lookup_inode hi
    have hpos : 0 < i.denyWriteCnt := by
      rw [h.denyWriteCnt i hi]
      refine Int.natCast_pos.2 (countP_pos_iff.2 ⟨f, hf, ?_⟩)
      simp [hif, hdeny]
    rw [hif] at hset
    rw [if_pos rfl]
    simp only [ends_bind, updateFile, ends_modify, inodeAllowWrite]
    rw [ends_derefInode hlookup, ends_check]
    refine ⟨fun _ => ?_, fun hnot => absurd ⟨hpos, h.deny_le_open hi⟩ hnot⟩
    exact ⟨hset, (h.uniqueFile.mem_update hf).2 (.inl rfl)⟩

/-- `file_duplicate`: the new file denies writes if the old one does. -/
theorem ends_fileDuplicate (hf : f ∈ s.files) :
    ends (fileDuplicate f.ptr) s (fun r t => Ok (heap t) held ∧ ∀ g, r = some g →
      f.denyWrite = true →
      ∃ f' ∈ t.files, f'.ptr = g ∧ f'.inode = f.inode ∧ f'.denyWrite = true) Unrelated := by
  obtain ⟨i, hi, hif⟩ := h.inode_of_file hf
  rw [fileDuplicate, ends_bind, ends_derefFile (h.uniqueFile.lookup_of_mem hf), ← bind_assoc,
    ends_bind, ← hif]
  refine ends_imp (ends_reopenFile h hi) ?_
  rintro (_ | g) t ⟨hok, hnew⟩
  · exact ⟨hok, fun g hg => by cases hg⟩
  · obtain ⟨rfl, hfiles⟩ := hnew g rfl
    have hmem : (⟨s.nextPtr, i.ptr, 0, false⟩ : File) ∈ t.files := by
      rw [hfiles]
      exact mem_cons_self
    -- the position is copied, and then the flag
    have hmoved : Ok (heap (t.mapFile s.nextPtr fun g => { g with pos := f.pos })) held :=
      hok.movePos hmem (fun _ => rfl) (fun _ => rfl) (fun _ => rfl) (h.pos_nonneg f hf)
    have hmem' : (⟨s.nextPtr, i.ptr, f.pos, false⟩ : File) ∈
        (t.mapFile s.nextPtr fun g => { g with pos := f.pos }).files :=
      (hok.uniqueFile.mem_update hmem).2 (.inl rfl)
    simp only [updateFile, ends_bind, ends_modify]
    cases hdeny : f.denyWrite with
    | true =>
      rw [if_pos rfl, ends_bind]
      refine ends_imp (ends_fileDenyWrite hmoved hmem' Unrelated) ?_
      rintro - u ⟨hok', g', hg', hptr, hinode, hflag⟩
      refine ⟨hok', fun g hg _ => ⟨g', hg', ?_, hinode, hflag⟩⟩
      cases hg
      exact hptr
    | false =>
      exact ⟨hmoved, fun g _ htrue => by cases htrue⟩

/-- `file_close`, of a file that denies writes or not. -/
theorem ends_fileClose (hf : f ∈ s.files) :
    ends (fileClose (some f.ptr)) s (fun _ t => Ok (heap t) held) Unrelated := by
  simp only [fileClose, ends_bind]
  refine ends_imp (ends_fileAllowWrite h hf Unrelated) ?_
  rintro - t ⟨hok, hmem⟩
  obtain ⟨i, hi, hif⟩ := hok.inode_of_file hmem
  rw [ends_derefFile (hok.uniqueFile.lookup_of_mem hmem), ← hif]
  refine ends_imp (ends_inodeClose (hok.lookup_inode hi)) ?_
  intro _ u hu
  rw [ends_modify]
  -- the file leaves its reference, which is the one that was closed
  have hdropped := (hok.dropFile hmem rfl).close hi (by rw [← hif]; exact mem_cons_self)
  rw [← hif, erase_cons_head] at hdropped
  obtain ⟨hinodes, hfiles, hnext⟩ := heap_eq hu
  simp only [heap, Fs.dropFile, hinodes, hfiles, hnext]
  exact hdropped

/-- `file_write`, as to the accounts. -/
theorem ends_fileWrite (hf : f ∈ s.files) (buffer : Nat → UInt8) (size : Int) :
    ends (fileWrite f.ptr buffer size) s (fun _ t => Ok (heap t) held) Unrelated := by
  rw [fileWrite, ends_bind, ends_derefFile (h.uniqueFile.lookup_of_mem hf), ends_bind]
  refine ends_imp (quiet_inodeWriteAt f.inode buffer size f.pos s) ?_
  intro n t ht
  have hok : Ok (heap t) held := ht ▸ h
  have hmem : f ∈ t.files := (heap_eq ht).2.1 ▸ hf
  have hpos := h.pos_nonneg f hf
  refine hok.movePos hmem (fun _ => rfl) (fun _ => rfl) (fun _ => rfl) ?_
  show 0 ≤ f.pos + (n : Int)
  omega

/-- `inode_open`. -/
theorem ends_inodeOpen (sector : Nat) :
    ends (inodeOpen sector) s (fun r t => Ok (heap t) (r.toList ++ held)) Unrelated := by
  rw [inodeOpen, ends_bind, ends_get]
  cases hopen : lookup Inode.sector s.openInodes sector with
  | some i => exact h.reopen (mem_of_lookup hopen)
  | none =>
    simp only [ends_bind]
    rw [ends_malloc]
    cases s.allocFails with
    | true => exact h
    | false =>
      simp only [Bool.not_false, if_true, ends_bind]
      rw [ends_newPtr]
      refine ends_imp (quiet_diskRead sector _) ?_
      intro block t ht
      obtain ⟨hinodes, hfiles, hnext⟩ := heap_eq ht
      simp only [ends_modify, ends_pure, heap, Ok, hinodes, hfiles, hnext]
      exact h.load rfl rfl rfl

end

/-- Some open handle of the inode denies writes. -/
def Denied (s : Fs) (p : Nat) : Prop := ∃ g ∈ s.files, g.inode = p ∧ g.denyWrite = true

theorem denied_iff (h : Ok (heap s) held) (hi : i ∈ s.openInodes) :
    Denied s i.ptr ↔ i.denyWriteCnt ≠ 0 := by
  rw [h.denyWriteCnt i hi, Int.natCast_ne_zero, ← Nat.pos_iff_ne_zero, denyCnt, countP_pos_iff]
  constructor
  · rintro ⟨g, hg, hinode, hflag⟩
    exact ⟨g, hg, by simp [hinode, hflag]⟩
  · rintro ⟨g, hg, hboth⟩
    rw [Bool.and_eq_true, decide_eq_true_eq] at hboth
    exact ⟨g, hg, hboth.1, hboth.2⟩

/-! ## When nothing is written -/

/-- The first chunk of the transfer goes through the bounce buffer. -/
def NeedsBounce (i : Inode) (size offset : Int) : Prop :=
  ¬ (offset.tmod sectorSize = 0 ∧ chunkSize i size offset = sectorSize)

/-- The assertions of a disk access, when all that matters of a panic is that one failed. -/
theorem ends_selectSector (sector : Nat) (Q : Unit → Fs → Prop) (F : Prop) :
    ends (selectSector sector) s Q (fun _ => F) ↔
      (Addressable s sector → Q () s) ∧ (¬ Addressable s sector → F) := by
  simp only [selectSector, ends_bind, ends_get, ends_check, Addressable]
  tauto

theorem ends_diskRead (sector : Nat) (Q : (Nat → UInt8) → Fs → Prop) (F : Prop) :
    ends (diskRead sector) s Q (fun _ => F) ↔
      (Addressable s sector → Q (fun j => s.disk (sectorSize * sector + j)) s) ∧
        (¬ Addressable s sector → F) := by
  rw [diskRead, ends_bind, ends_selectSector]
  rfl

theorem ends_diskWrite (sector : Nat) (block : Nat → UInt8) (Q : Unit → Fs → Prop) (F : Prop) :
    ends (diskWrite sector block) s Q (fun _ => F) ↔
      (Addressable s sector → Q () (s.patchDisk (sectorSize * sector) sectorSize block)) ∧
        (¬ Addressable s sector → F) := by
  rw [diskWrite, ends_bind, ends_selectSector]
  rfl

/-- A chunk needs a bounce buffer and none can be allocated. -/
def NoBuffer (s : Fs) (offset chunk : Int) (bounce : Bool) : Prop :=
  bounce = false ∧ s.allocFails = true ∧ ¬ (offset.tmod sectorSize = 0 ∧ chunk = sectorSize)

/-- A chunk is written unless there is no buffer for it; then nothing has been done, and the disk
was not accessed. -/
theorem ends_writeChunk {chunk : Int} {bounce : Bool} {data : Nat → UInt8} (h0 : 0 ≤ offset)
    (hlt : offset < i.length) :
    ends (writeChunk i offset chunk bounce data) s
      (fun r t => t.capacity = s.capacity ∧ (r = none → t = s.afterAlloc) ∧
        (r = none ↔ NoBuffer s offset chunk bounce))
      fun _ => ¬ DataOnDisk s i ∧ ¬ NoBuffer s offset chunk bounce := by
  have hoff : ¬ Addressable s (byteToSector i offset) → ¬ DataOnDisk s i := by
    intro hnot hd
    obtain ⟨hsector, haddr⟩ := byteToSector_eq hd h0 hlt
    exact hnot (hsector ▸ haddr)
  simp only [writeChunk, writeDirect, writeBounced]
  -- when there is a buffer or none is needed, from any state of the same disk size
  have hwrite : ∀ (u : Fs) (block : Nat → UInt8) (b : Bool), u.capacity = s.capacity →
      ¬ NoBuffer s offset chunk bounce → ends (do
        diskWrite (byteToSector i offset) block
        return some b) u (fun r t => t.capacity = s.capacity ∧ (r = none → t = s.afterAlloc) ∧
          (r = none ↔ NoBuffer s offset chunk bounce))
        fun _ => ¬ DataOnDisk s i ∧ ¬ NoBuffer s offset chunk bounce := by
    intro u block b hu hcause
    rw [ends_bind, ends_diskWrite, Addressable, hu]
    exact ⟨fun _ => ⟨hu, (fun hr => by cases hr), iff_of_false (Option.some_ne_none _) hcause⟩,
      fun hnot => ⟨hoff hnot, hcause⟩⟩
  rw [ends_ite]
  refine ⟨fun hwhole => hwrite s _ _ rfl fun hcond => hcond.2.2 hwhole, fun hpart => ?_⟩
  have hrest : ∀ u : Fs, u.capacity = s.capacity → ¬ NoBuffer s offset chunk bounce → ends (do
      let block ← bounceContent (byteToSector i offset) (offset.tmod sectorSize) chunk
      diskWrite (byteToSector i offset) (ByteMemory.patch block (offset.tmod sectorSize).toNat
        chunk.toNat data)
      return some true) u (fun r t => t.capacity = s.capacity ∧ (r = none → t = s.afterAlloc) ∧
        (r = none ↔ NoBuffer s offset chunk bounce))
      fun _ => ¬ DataOnDisk s i ∧ ¬ NoBuffer s offset chunk bounce := by
    intro u hu hcause
    rw [ends_bind, bounceContent, ends_ite]
    refine ⟨fun _ => ?_, fun _ => hwrite u _ true hu hcause⟩
    rw [ends_diskRead, Addressable, hu]
    exact ⟨fun _ => hwrite u _ true hu hcause, fun hnot => ⟨hoff hnot, hcause⟩⟩
  cases bounce with
  | true => exact hrest s rfl fun hcond => by cases hcond.1
  | false =>
    rw [ends_bind, bounceBuffer, if_neg Bool.false_ne_true, ends_malloc]
    cases halloc : s.allocFails with
    | true => exact ⟨rfl, fun _ => rfl, iff_of_true rfl ⟨rfl, halloc, hpart⟩⟩
    | false =>
      refine hrest s.afterAlloc rfl fun hcond => ?_
      rw [hcond.2.1] at halloc
      cases halloc

/-- The loop of `inode_write_at` counts up, whatever allocations fail. -/
theorem ends_writeLoop {fuel : Nat} {done : Nat} {bounce : Bool} (h0 : 0 ≤ offset) :
    ends (writeLoop i buffer fuel size offset done bounce) s (fun r _ => done ≤ r)
      fun _ => ¬ DataOnDisk s i := by
  induction fuel generalizing s size offset done bounce with
  | zero =>
    rw [writeLoop, ends_pure]
  | succ fuel ih =>
    rw [writeLoop, ends_ite]
    refine ⟨fun _ => le_refl done, fun hsize => ?_⟩
    obtain ⟨hpos, -⟩ := chunkSize_facts (i := i) h0 (not_le.1 hsize)
    rw [ends_ite]
    refine ⟨fun _ => le_refl done, fun hchunk => ?_⟩
    have hc0 := not_le.1 hchunk
    rw [ends_bind]
    refine ends_mono (ends_writeChunk h0 (hpos.1 hc0)) ?_ fun _ he => he.1
    rintro (_ | b) t ⟨hcap, -⟩
    · exact le_refl done
    · refine ends_mono (ih (by omega)) (fun r _ hr => (Nat.le_add_right done _).trans hr)
        fun _ he hd => ?_
      exact he (hd.congr hcap)

/-- Why a write of `size` bytes at `offset` writes nothing. -/
def WritesNothing (s : Fs) (i : Inode) (size offset : Int) : Prop :=
  i.denyWriteCnt ≠ 0 ∨ size ≤ 0 ∨ i.length ≤ offset ∨
    s.allocFails = true ∧ NeedsBounce i size offset

/-- The states differ in no more than the allocations to come. -/
def Unchanged (s t : Fs) : Prop := t = { s with failures := t.failures }

/-- `inode_write_at` writes nothing exactly when writes are denied, there is nothing to write, or
the first chunk needs a bounce buffer and there is none. -/
theorem ends_inodeWriteAt (hi : lookup Inode.ptr s.openInodes p = some i) (h0 : 0 ≤ offset) :
    ends (inodeWriteAt p buffer size offset) s
      (fun r t => (r = 0 ↔ WritesNothing s i size offset) ∧ (r = 0 → Unchanged s t))
      fun _ => ¬ DataOnDisk s i ∧ ¬ WritesNothing s i size offset := by
  rw [inodeWriteAt, ends_bind, ends_derefInode hi, ends_ite]
  refine ⟨fun hdeny => ⟨iff_of_true rfl (.inl hdeny), fun _ => rfl⟩, fun hallow => ?_⟩
  have hdeny := not_not.1 hallow
  by_cases hsize : size ≤ 0
  · rw [Int.toNat_eq_zero.2 hsize, writeLoop]
    exact ⟨iff_of_true rfl (.inr (.inl hsize)), fun _ => rfl⟩
  · have hsize' := not_le.1 hsize
    obtain ⟨hpos, -⟩ := chunkSize_facts (i := i) h0 hsize'
    obtain ⟨fuel, hfuel⟩ : ∃ fuel, size.toNat = fuel + 1 := ⟨size.toNat - 1, by omega⟩
    rw [hfuel, writeLoop, if_neg hsize, ends_ite]
    constructor
    · intro hchunk
      have hlen : i.length ≤ offset := not_lt.1 fun hlt => not_lt.2 hchunk (hpos.2 hlt)
      exact ⟨iff_of_true rfl (.inr (.inr (.inl hlen))), fun _ => rfl⟩
    · intro hchunk
      have hc0 := not_le.1 hchunk
      have hlen := hpos.1 hc0
      -- only the first chunk is left as a cause
      have hcause : WritesNothing s i size offset ↔ s.allocFails = true ∧
          NeedsBounce i size offset := by
        simp only [WritesNothing, hdeny, ne_eq, not_true_eq_false, false_or, hsize, not_le.2 hlen]
      rw [hcause, ends_bind]
      refine ends_mono (ends_writeChunk h0 hlen) ?_ fun _ he =>
        ⟨he.1, fun hcond => he.2 ⟨rfl, hcond⟩⟩
      rintro (_ | b) t ⟨hcap, hsame, hfails⟩
      · refine ⟨iff_of_true rfl (hfails.1 rfl).2, fun _ => ?_⟩
        rw [hsame rfl]
        rfl
      · -- the chunk that was written is part of the result
        have hpart : ¬ (s.allocFails = true ∧ NeedsBounce i size offset) := fun hcond =>
          Option.some_ne_none _ (hfails.2 ⟨rfl, hcond⟩)
        refine ends_mono (ends_writeLoop (by omega)) (fun r u hr => ?_) fun _ he => ?_
        · have hr0 : r ≠ 0 := by omega
          exact ⟨iff_of_false hr0 hpart, fun hr' => absurd hr' hr0⟩
        · exact ⟨fun hd => he (hd.congr hcap), hpart⟩

/-- `file_write` writes nothing for the reasons of `inode_write_at`. -/
theorem ends_fileWrite_zero (h : Ok (heap s) held) (hf : f ∈ s.files) (hi : i ∈ s.openInodes)
    (hif : i.ptr = f.inode) :
    ends (fileWrite f.ptr buffer size) s
      (fun r t => r = 0 ∧ Unchanged s t ↔ WritesNothing s i size f.pos)
      fun _ => ¬ DataOnDisk s i ∧ ¬ WritesNothing s i size f.pos := by
  rw [fileWrite, ends_bind, ends_derefFile (h.uniqueFile.lookup_of_mem hf), ends_bind]
  refine ends_imp (ends_inodeWriteAt (hif ▸ h.lookup_inode hi) (h.pos_nonneg f hf)) ?_
  rintro r t ⟨hzero, hsame⟩
  rw [ends_bind, updateFile, ends_modify, ends_pure, ← hzero]
  refine and_iff_left_of_imp fun hr => ?_
  -- the position moves by nothing
  have hmove : t.mapFile f.ptr (fun f => { f with pos := f.pos + (r : Nat) }) = t := by
    rw [hr, Fs.mapFile]
    simp [update]
  rw [hmove]
  exact hsame hr

end Calls

/-! ## Sequences of calls -/

/-- A call. The references to inodes that `inode_open` returns are held by the caller until they are
closed or handed over to `file_open`. -/
inductive Call where
  | inodeOpen (sector : Nat)
  | inodeRemove (inode : Nat)
  | inodeClose (inode : Nat)
  | fileOpen (inode : Nat)
  | fileReopen (file : Nat)
  | fileDuplicate (file : Nat)
  | fileDenyWrite (file : Nat)
  | fileAllowWrite (file : Nat)
  | fileWrite (file : Nat) (buffer : Nat → UInt8) (size : Int)
  | fileSeek (file : Nat) (newPos : Int)
  | fileClose (file : Nat)
  /-- What other code does to the disk and the free map, and to the memory that is left. -/
  | elsewhere (disk : ByteMemory.Bytes) (freeMap : Bitmap) (failures : List Bool)

/-- The call, with the references that are held before and after it. -/
def Call.exec (held : List Nat) : Call → FsM (List Nat)
  | .inodeOpen sector => do
    let inode ← Inode.inodeOpen sector
    return inode.toList ++ held
  | .inodeRemove inode => do
    Inode.inodeRemove inode
    return held
  | .inodeClose inode => do
    Inode.inodeClose (some inode)
    return held.erase inode
  | .fileOpen inode => do
    let _ ← File.fileOpen (some inode)
    return held.erase inode
  | .fileReopen file => do
    let _ ← File.fileReopen file
    return held
  | .fileDuplicate file => do
    let _ ← File.fileDuplicate file
    return held
  | .fileDenyWrite file => do
    File.fileDenyWrite file
    return held
  | .fileAllowWrite file => do
    File.fileAllowWrite file
    return held
  | .fileWrite file buffer size => do
    let _ ← File.fileWrite file buffer size
    return held
  | .fileSeek file newPos => do
    File.fileSeek file newPos
    return held
  | .fileClose file => do
    File.fileClose (some file)
    return held
  | .elsewhere disk freeMap failures => do
    modify fun s => { s with disk := disk, freeMap := freeMap, failures := failures }
    return held

/-- The call is made with a reference that is held, or on an open file. -/
def Call.valid (s : Fs) (held : List Nat) : Call → Bool
  | .inodeOpen _ | .elsewhere .. => true
  | .inodeRemove inode | .inodeClose inode | .fileOpen inode => decide (inode ∈ held)
  | .fileReopen file | .fileDuplicate file | .fileDenyWrite file | .fileAllowWrite file
  | .fileWrite file _ _ | .fileSeek file _ | .fileClose file =>
    (lookup File.ptr s.files file).isSome

/-- A valid call that returns. -/
def step (x : Fs × List Nat) (c : Call) : Option (Fs × List Nat) :=
  if c.valid x.1 x.2 then
    match c.exec x.2 x.1 with
    | .ok (held, s) => some (s, held)
    | .error _ => none
  else
    none

section Sequences

variable {s : Fs} {held : List Nat} {i : Inode} {f : File}

theorem ends_fileSeek (h : Ok (heap s) held) (hf : f ∈ s.files) (newPos : Int) :
    ends (fileSeek f.ptr newPos) s (fun _ t => Ok (heap t) held) Unrelated := by
  rw [fileSeek, ends_bind, ends_check]
  refine ⟨fun hpos => ?_, fun _ => ⟨by decide, by decide⟩⟩
  exact h.movePos hf (fun _ => rfl) (fun _ => rfl) (fun _ => rfl) hpos

theorem ends_inodeRemove (h : Ok (heap s) held) (hi : i ∈ s.openInodes) :
    ends (inodeRemove i.ptr) s (fun _ t => Ok (heap t) held) Unrelated := by
  exact h.setInode (u := fun j => { j with removed := true }) hi (fun _ => rfl)
    h.uniqueFile h.file_lt h.pos_nonneg (h.openCnt i hi) (h.denyWriteCnt i hi) fun _ _ => ⟨rfl, rfl⟩

/-- A valid call keeps the accounts, and stops for no reason that has to do with denied writes. -/
theorem ends_exec (h : Ok (heap s) held) {c : Call} (hvalid : c.valid s held = true) :
    ends (c.exec held) s (fun held' t => Ok (heap t) held') Unrelated := by
  -- the two kinds of argument: a reference that is held, and a file
  have hheld : ∀ {p : Nat}, decide (p ∈ held) = true → ∃ i ∈ s.openInodes, i.ptr =
      p ∧ p ∈ held := by
    intro p hp
    obtain ⟨i, hi, hptr⟩ := h.inode_of_held (of_decide_eq_true hp)
    exact ⟨i, hi, hptr, of_decide_eq_true hp⟩
  have hfile : ∀ {p : Nat}, (lookup File.ptr s.files p).isSome = true →
      ∃ f ∈ s.files, f.ptr = p := by
    intro p hp
    obtain ⟨f, hf⟩ := Option.isSome_iff_exists.1 hp
    exact ⟨f, mem_of_lookup hf, key_of_lookup hf⟩
  have hsame : ∀ {α : Type} {x : FsM α}, ends x s (fun _ t => Ok (heap t) held) Unrelated →
      ends (do let _ ← x; return held) s (fun held' t => Ok (heap t) held') Unrelated := by
    intro α x hx
    rw [ends_bind]
    exact ends_imp hx (fun _ t ht => ht)
  cases c with
  | inodeOpen sector =>
    rw [Call.exec, ends_bind]
    exact ends_imp (ends_inodeOpen h sector) (fun _ t ht => ht)
  | inodeRemove inode =>
    obtain ⟨i, hi, rfl, -⟩ := hheld hvalid
    exact hsame (ends_inodeRemove h hi)
  | inodeClose inode =>
    obtain ⟨i, hi, rfl, hp⟩ := hheld hvalid
    rw [Call.exec, ends_bind]
    refine ends_imp (ends_inodeClose (h.lookup_inode hi)) (fun _ t ht => ?_)
    rw [ends_pure, ht]
    exact h.close hi hp
  | fileOpen inode =>
    obtain ⟨i, hi, rfl, hp⟩ := hheld hvalid
    rw [Call.exec, ends_bind]
    refine ends_imp (ends_fileOpen (h.lookup_inode hi)) (fun r t ht => ?_)
    rw [ends_pure]
    rcases ht with ⟨-, ht⟩ | ⟨-, ht⟩
    · rw [ht]
      exact h.close hi hp
    · rw [ht]
      exact h.openFile hp
  | fileReopen file =>
    obtain ⟨f, hf, rfl⟩ := hfile hvalid
    obtain ⟨i, hi, hif⟩ := h.inode_of_file hf
    refine hsame ?_
    rw [fileReopen, ends_bind, ends_derefFile (h.uniqueFile.lookup_of_mem hf), ← hif]
    exact ends_imp (ends_reopenFile h hi) (fun _ t ht => ht.1)
  | fileDuplicate file =>
    obtain ⟨f, hf, rfl⟩ := hfile hvalid
    exact hsame (ends_imp (ends_fileDuplicate h hf) (fun _ t ht => ht.1))
  | fileDenyWrite file =>
    obtain ⟨f, hf, rfl⟩ := hfile hvalid
    exact hsame (ends_imp (ends_fileDenyWrite h hf Unrelated) (fun _ t ht => ht.1))
  | fileAllowWrite file =>
    obtain ⟨f, hf, rfl⟩ := hfile hvalid
    exact hsame (ends_imp (ends_fileAllowWrite h hf Unrelated) (fun _ t ht => ht.1))
  | fileWrite file buffer size =>
    obtain ⟨f, hf, rfl⟩ := hfile hvalid
    exact hsame (ends_fileWrite h hf buffer size)
  | fileSeek file newPos =>
    obtain ⟨f, hf, rfl⟩ := hfile hvalid
    exact hsame (ends_fileSeek h hf newPos)
  | fileClose file =>
    obtain ⟨f, hf, rfl⟩ := hfile hvalid
    exact hsame (ends_fileClose h hf)
  | elsewhere disk freeMap failures => exact h

theorem ok_step {x y : Fs × List Nat} {c : Call} (h : Ok (heap x.1) x.2)
    (hstep : step x c = some y) : Ok (heap y.1) y.2 := by
  unfold step at hstep
  split at hstep
  · rename_i hvalid
    cases hexec : c.exec x.2 x.1 with
    | ok r =>
      rw [hexec] at hstep
      cases hstep
      exact ends_of_eq_ok (a := r.1) (ends_exec h hvalid) hexec
    | error e =>
      rw [hexec] at hstep
      cases hstep
  · cases hstep

/-- The accounts are right after any calls, from a state with nothing open. -/
theorem ok_run {s₀ : Fs} {calls : List Call} (hinodes : s₀.openInodes = []) (hfiles : s₀.files = [])
    (hrun : run step (s₀, []) calls = some (s, held)) : Ok (heap s) held := by
  have h₀ : Ok (heap s₀) [] := by
    rw [Ok, heap, hinodes, hfiles]
    constructor <;> simp [KeyedList.Unique, refCnt, fileCnt]
  exact run_invariant (P := fun _ => True) (I := fun x => Ok (heap x.1) x.2)
    (fun _ _ _ _ h hstep => ok_step h hstep) (fun _ _ => trivial) h₀ hrun

/-- Whatever was called, on whatever inodes: `deny_write_cnt` is the number of handles of the inode
that deny writes and at most `open_cnt`; no call fails an assertion about the two; the duplicate of
a handle that denies writes denies them too; and `file_write` returns 0 and changes nothing if and
only if some handle of the inode denies writes, there is nothing to write, or the first chunk is
part of a sector and there is no memory for it. It can panic only when the data of the inode are off
the disk. -/
theorem deny_accounting {s₀ : Fs} {calls : List Call} (hinodes : s₀.openInodes = [])
    (hfiles : s₀.files = []) (hrun : run step (s₀, []) calls = some (s, held)) :
    (∀ i ∈ s.openInodes, i.denyWriteCnt = denyCnt s.files i.ptr ∧ 0 ≤ i.denyWriteCnt ∧
      i.denyWriteCnt ≤ i.openCnt) ∧
    (∀ c : Call, c.valid s held = true → ∀ e, c.exec held s = .error e →
      e ≠ .denyWriteCnt ∧ e ≠ .allowWriteCnt) ∧
    (∀ f ∈ s.files, f.denyWrite = true → ∀ g t, fileDuplicate f.ptr s = .ok (some g, t) →
      ∃ f' ∈ t.files, f'.ptr = g ∧ f'.inode = f.inode ∧ f'.denyWrite = true) ∧
    (∀ f ∈ s.files, ∃ i ∈ s.openInodes, i.ptr = f.inode ∧ ∀ (buffer : Nat → UInt8) (size : Int),
      ends (fileWrite f.ptr buffer size) s
        (fun r t => r = 0 ∧ Unchanged s t ↔ Denied s i.ptr ∨ size ≤ 0 ∨ i.length ≤ f.pos ∨
          s.allocFails = true ∧ NeedsBounce i size f.pos)
        fun _ => ¬ DataOnDisk s i ∧ ¬ (Denied s i.ptr ∨ size ≤ 0 ∨ i.length ≤ f.pos ∨
          s.allocFails = true ∧ NeedsBounce i size f.pos)) := by
  have h := ok_run hinodes hfiles hrun
  refine ⟨?_, ?_, ?_, ?_⟩
  · intro i hi
    have hdeny := h.denyWriteCnt i hi
    refine ⟨hdeny, ?_, h.deny_le_open hi⟩
    rw [hdeny]
    exact Int.natCast_nonneg _
  · intro c hvalid e he
    have hunrelated : Unrelated e := ends_of_eq_error (ends_exec h hvalid) he
    exact hunrelated
  · intro f hf hdeny g t hdup
    exact (ends_of_eq_ok (ends_fileDuplicate h hf) hdup).2 g rfl hdeny
  · intro f hf
    obtain ⟨i, hi, hif⟩ := h.inode_of_file hf
    refine ⟨i, hi, hif, fun buffer size => ?_⟩
    have hcauses : WritesNothing s i size f.pos ↔ Denied s i.ptr ∨ size ≤ 0 ∨ i.length ≤ f.pos ∨
        s.allocFails = true ∧ NeedsBounce i size f.pos := by
      rw [WritesNothing, denied_iff h hi]
    rw [← hcauses]
    exact ends_fileWrite_zero h hf hi hif

/-- A disk with one inode, of 8 bytes, in sector 1; its data are in sector 2. -/
def smallDisk (failures : List Bool) : Fs where
  disk a := if a = 512 then 2 else if a = 516 then 8 else 0
  capacity := 3
  freeMap := ⟨3, [0], rfl⟩
  freeMapFile := none
  openInodes := []
  files := []
  nextPtr := 0
  failures := failures

theorem deny_accounting_duplicated : ∃ s held,
    run step (smallDisk [], []) [.inodeOpen 1, .fileOpen 0, .fileDenyWrite 1, .fileDuplicate 1] =
      some (s, held) ∧
    (∀ i ∈ s.openInodes, i.denyWriteCnt = denyCnt s.files i.ptr ∧ 0 ≤ i.denyWriteCnt ∧
      i.denyWriteCnt ≤ i.openCnt) := by
  have hany : (run step (smallDisk [], [])
      [.inodeOpen 1, .fileOpen 0, .fileDenyWrite 1, .fileDuplicate 1]).isSome = true := by
    decide +kernel
  obtain ⟨⟨s, held⟩, hrun⟩ := Option.isSome_iff_exists.1 hany
  exact ⟨s, held, hrun, (deny_accounting rfl rfl hrun).1⟩

/-- No handle denies writes and there are 8 bytes to write, but the bounce buffer cannot be
allocated: `file_write` returns 0 and changes nothing. -/
theorem fileWrite_noMemory : ∃ s held f i,
    run step (smallDisk [false, false, true], []) [.inodeOpen 1, .fileOpen 0] = some (s, held) ∧
    f ∈ s.files ∧ i ∈ s.openInodes ∧ i.ptr = f.inode ∧ f.pos < i.length ∧ ¬ Denied s f.inode ∧
    wp (fileWrite f.ptr (fun _ => 7) 8) s fun r t => r = 0 ∧ Unchanged s t := by
  have hany : (run step (smallDisk [false, false, true], []) [.inodeOpen 1, .fileOpen 0]).any
      (fun x => decide (x.1.files.map (fun f => (f.inode, f.pos, f.denyWrite)) = [(0, 0, false)] ∧
        x.1.openInodes.map (fun i => (i.ptr, i.length)) = [(0, 8)] ∧ x.1.allocFails = true)) =
          true := by
    decide +kernel
  obtain ⟨⟨s, held⟩, hrun, hstate⟩ := (Option.any_eq_true _ _).1 hany
  obtain ⟨hfiles, hinodes, halloc⟩ := of_decide_eq_true hstate
  obtain ⟨f, hf, hfields⟩ := map_eq_singleton_iff.1 hfiles
  obtain ⟨i, hi, hifields⟩ := map_eq_singleton_iff.1 hinodes
  simp only [Prod.mk.injEq] at hfields hifields
  obtain ⟨hinode, hpos, hdeny⟩ := hfields
  obtain ⟨hptr, hlength⟩ := hifields
  have hfmem : f ∈ s.files := hf ▸ mem_singleton_self f
  have himem : i ∈ s.openInodes := hi ▸ mem_singleton_self i
  have hif : i.ptr = f.inode := hptr.trans hinode.symm
  have hallowed : ¬ Denied s f.inode := by
    rintro ⟨g, hg, -, hgdeny⟩
    rw [hf] at hg
    rw [mem_singleton.1 hg, hdeny] at hgdeny
    cases hgdeny
  refine ⟨s, held, f, i, hrun, hfmem, himem, hif, by omega, hallowed, ?_⟩
  have hcause : WritesNothing s i 8 f.pos := by
    refine .inr (.inr (.inr ⟨halloc, ?_⟩))
    rintro ⟨-, hchunk⟩
    rw [chunkSize, hlength, hpos] at hchunk
    cases hchunk
  refine wp_mono (wp_of_ends (ends_fileWrite_zero (ok_run rfl rfl hrun) hfmem himem hif) ?_) ?_
  · exact fun _ he => he.2 hcause
  · exact fun _ _ hiff => hiff.2 hcause

end Sequences

end Pintos.Filesys.DenyWrites
