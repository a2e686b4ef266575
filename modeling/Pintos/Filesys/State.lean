import Pintos.Lib.KeyedList
import Pintos.Lib.StateExcept
import Pintos.LibKernel.Bitmap

/-!
# The state of the file system

The disk (`devices/disk.c`), the in-memory free map, the open inodes and the open files. The disk is
one array of bytes, sector `n` being its bytes from `512 * n` on. The inodes and files on the heap
are kept in lists under their pointers, `nextPtr` being a pointer never handed out before, so a
pointer is valid exactly while its structure is in the list. Whether the allocations to come fail is
left open in `failures`, the empty list meaning that they all succeed.
-/

set_option autoImplicit false

namespace Pintos.Filesys.State

open Lib.KeyedList Lib.StateExcept Lib.ByteMemory LibKernel

/-- `DISK_SECTOR_SIZE`. -/
def sectorSize : Nat := 512

/-- `FREE_MAP_SECTOR`: the header sector of the free map file. -/
def freeMapSector : Nat := 0

/-- `ROOT_DIR_SECTOR`: the header sector of the root directory. -/
def rootDirSector : Nat := 1

/-- `struct inode`, with the two members of `struct inode_disk` that are read. -/
structure Inode where
  ptr : Nat
  sector : Nat
  openCnt : Int
  removed : Bool
  denyWriteCnt : Int
  start : Nat
  length : Int

/-- `struct file`. -/
structure File where
  ptr : Nat
  inode : Nat
  pos : Int
  denyWrite : Bool

/-- The state of the file system module. -/
structure Fs where
  /-- The bytes of the disk. -/
  disk : Bytes
  /-- The number of sectors. -/
  capacity : Nat
  freeMap : Bitmap
  freeMapFile : Option Nat
  openInodes : List Inode
  files : List File
  nextPtr : Nat
  /-- For each allocation to come, whether it fails. -/
  failures : List Bool

/-- Why the kernel stops: a failed `ASSERT`, a `PANIC`, or the use of a bad pointer. -/
inductive Panic where
  | diskCapacity
  | diskLba
  | badPointer
  | bitmapRange
  | freeMapReleaseUsed
  | freeMapCreation
  | freeMapOpen
  | freeMapRead
  | freeMapWrite
  | bitmapCreation
  | rootDirCreation
  | inodeCreateLength
  | denyWriteCnt
  | allowWriteCnt
  | fileSeekNonneg
  deriving DecidableEq

/-- File system code. -/
abbrev FsM (α : Type) : Type := Comp Fs Panic α

/-- `malloc` and `calloc`: whether the allocation succeeds. -/
def malloc : FsM Bool := do
  let s ← get
  match s.failures with
  | [] => return true
  | fails :: rest =>
    set { s with failures := rest }
    return !fails

/-- The pointer to a structure that was just allocated. -/
def newPtr : FsM Nat := do
  let s ← get
  set { s with nextPtr := s.nextPtr + 1 }
  return s.nextPtr

/-- `select_sector`: the assertions that every disk access passes. -/
def selectSector (sector : Nat) : FsM Unit := do
  check (sector < (← get).capacity) .diskCapacity
  check (sector < 2 ^ 28) .diskLba

/-- `disk_read`: the bytes of a sector. -/
def diskRead (sector : Nat) : FsM (Nat → UInt8) := do
  selectSector sector
  let s ← get
  return fun i => s.disk (sectorSize * sector + i)

/-- The state with `n` bytes of the disk overwritten from the address `a` on. -/
def Fs.patchDisk (s : Fs) (a n : Nat) (f : Nat → UInt8) : Fs :=
  { s with disk := patch s.disk a n f }

/-- `disk_write`. -/
def diskWrite (sector : Nat) (block : Nat → UInt8) : FsM Unit := do
  selectSector sector
  modify fun s => s.patchDisk (sectorSize * sector) sectorSize block

/-- Follow a pointer to an inode. -/
def derefInode (ptr : Nat) : FsM Inode := do
  match lookup Inode.ptr (← get).openInodes ptr with
  | some i => return i
  | none => throw .badPointer

/-- Follow a pointer to a file. -/
def derefFile (ptr : Nat) : FsM File := do
  match lookup File.ptr (← get).files ptr with
  | some f => return f
  | none => throw .badPointer

/-- The state with the inode changed that a pointer leads to. -/
def Fs.mapInode (s : Fs) (ptr : Nat) (f : Inode → Inode) : Fs :=
  { s with openInodes := update Inode.ptr s.openInodes ptr f }

/-- The state without an inode. -/
def Fs.dropInode (s : Fs) (ptr : Nat) : Fs :=
  { s with openInodes := erase Inode.ptr s.openInodes ptr }

/-- The state with the file changed that a pointer leads to. -/
def Fs.mapFile (s : Fs) (ptr : Nat) (g : File → File) : Fs :=
  { s with files := update File.ptr s.files ptr g }

/-- The state without a file. -/
def Fs.dropFile (s : Fs) (ptr : Nat) : Fs :=
  { s with files := erase File.ptr s.files ptr }

/-- The state with a new file on an inode. -/
def Fs.addFile (s : Fs) (inode : Nat) : Fs :=
  { s with files := ⟨s.nextPtr, inode, 0, false⟩ :: s.files, nextPtr := s.nextPtr + 1 }

/-- The next allocation fails. -/
def Fs.allocFails (s : Fs) : Bool := s.failures.headD false

/-- The state after an allocation, as to whether the others fail. -/
def Fs.afterAlloc (s : Fs) : Fs := { s with failures := s.failures.tail }

/-- Change the inode that a pointer leads to. -/
def updateInode (ptr : Nat) (f : Inode → Inode) : FsM Unit :=
  modify fun s => s.mapInode ptr f

/-- Change the file that a pointer leads to. -/
def updateFile (ptr : Nat) (g : File → File) : FsM Unit :=
  modify fun s => s.mapFile ptr g

/-! ## What a change leaves alone -/

namespace Fs

variable (s : Fs) (a n k : Nat) (f : Nat → UInt8)

@[simp] theorem patchDisk_disk : (s.patchDisk a n f).disk = patch s.disk a n f := rfl

@[simp] theorem patchDisk_capacity : (s.patchDisk a n f).capacity = s.capacity := rfl

@[simp] theorem patchDisk_freeMap : (s.patchDisk a n f).freeMap = s.freeMap := rfl

@[simp] theorem patchDisk_freeMapFile : (s.patchDisk a n f).freeMapFile = s.freeMapFile := rfl

@[simp] theorem patchDisk_openInodes : (s.patchDisk a n f).openInodes = s.openInodes := rfl

@[simp] theorem patchDisk_files : (s.patchDisk a n f).files = s.files := rfl

@[simp] theorem patchDisk_failures : (s.patchDisk a n f).failures = s.failures := rfl

@[simp] theorem patchDisk_zero : s.patchDisk a 0 f = s := by
  rw [patchDisk, patch_zero]

theorem patchDisk_append :
    (s.patchDisk a k f).patchDisk (a + k) n (fun i => f (k + i)) = s.patchDisk a (k + n) f := by
  rw [patchDisk, patchDisk_disk, patch_append]
  rfl

@[simp] theorem mapInode_disk (p : Nat) (u : Inode → Inode) : (s.mapInode p u).disk = s.disk := rfl

@[simp] theorem mapInode_freeMap (p : Nat) (u : Inode → Inode) :
    (s.mapInode p u).freeMap = s.freeMap := rfl

@[simp] theorem dropInode_disk (p : Nat) : (s.dropInode p).disk = s.disk := rfl

@[simp] theorem dropInode_freeMap (p : Nat) : (s.dropInode p).freeMap = s.freeMap := rfl

@[simp] theorem mapFile_disk (p : Nat) (g : File → File) : (s.mapFile p g).disk = s.disk := rfl

@[simp] theorem mapFile_freeMap (p : Nat) (g : File → File) :
    (s.mapFile p g).freeMap = s.freeMap := rfl

@[simp] theorem addFile_disk (p : Nat) : (s.addFile p).disk = s.disk := rfl

@[simp] theorem addFile_freeMap (p : Nat) : (s.addFile p).freeMap = s.freeMap := rfl

@[simp] theorem dropFile_disk (p : Nat) : (s.dropFile p).disk = s.disk := rfl

@[simp] theorem dropFile_freeMap (p : Nat) : (s.dropFile p).freeMap = s.freeMap := rfl

end Fs

/-! ## Rules -/

section Rules

variable {s : Fs}

/-- The sector may be accessed. -/
def Addressable (s : Fs) (sector : Nat) : Prop := sector < s.capacity ∧ sector < 2 ^ 28

@[simp] theorem wp_diskRead (sector : Nat) (Q : (Nat → UInt8) → Fs → Prop) :
    wp (diskRead sector) s Q ↔
      Addressable s sector ∧ Q (fun i => s.disk (sectorSize * sector + i)) s := by
  simp [diskRead, selectSector, Addressable, and_assoc]

@[simp] theorem wp_diskWrite (sector : Nat) (block : Nat → UInt8) (Q : Unit → Fs → Prop) :
    wp (diskWrite sector block) s Q ↔ Addressable s sector ∧
      Q () (s.patchDisk (sectorSize * sector) sectorSize block) := by
  simp [diskWrite, selectSector, Addressable, and_assoc]

/-- While allocation succeeds, `malloc` changes nothing. -/
theorem wp_malloc (h : s.failures = []) (Q : Bool → Fs → Prop) : wp malloc s Q ↔ Q true s := by
  simp [malloc, h]

/-- `malloc`, whether it succeeds or not. -/
theorem wp_malloc_iff (Q : Bool → Fs → Prop) : wp malloc s Q ↔ Q (!s.allocFails) s.afterAlloc := by
  cases hf : s.failures with
  | nil =>
    have hsame : s.afterAlloc = s := by rw [Fs.afterAlloc, hf, List.tail_nil, ← hf]
    rw [wp_malloc hf, hsame, Fs.allocFails, hf]
    rfl
  | cons fails rest =>
    simp [malloc, hf, Fs.allocFails, Fs.afterAlloc]

@[simp] theorem wp_newPtr (Q : Nat → Fs → Prop) :
    wp newPtr s Q ↔ Q s.nextPtr { s with nextPtr := s.nextPtr + 1 } := by
  simp [newPtr]

@[simp] theorem wp_updateInode (ptr : Nat) (f : Inode → Inode) (Q : Unit → Fs → Prop) :
    wp (updateInode ptr f) s Q ↔ Q () (s.mapInode ptr f) :=
  wp_modify _ s Q

@[simp] theorem wp_updateFile (ptr : Nat) (g : File → File) (Q : Unit → Fs → Prop) :
    wp (updateFile ptr g) s Q ↔ Q () (s.mapFile ptr g) :=
  wp_modify _ s Q

theorem wp_derefInode {i : Inode} {ptr : Nat}
    (h : lookup Inode.ptr s.openInodes ptr = some i) (Q : Inode → Fs → Prop) :
    wp (derefInode ptr) s Q ↔ Q i s := by
  simp [derefInode, h]

theorem wp_derefFile {f : File} {ptr : Nat}
    (h : lookup File.ptr s.files ptr = some f) (Q : File → Fs → Prop) :
    wp (derefFile ptr) s Q ↔ Q f s := by
  simp [derefFile, h]

end Rules

end Pintos.Filesys.State
