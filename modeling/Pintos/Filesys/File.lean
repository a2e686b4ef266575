import Pintos.Filesys.Inode

/-!
# Files

`filesys/file.c`: a file is a handle on an open inode, with a position and a flag that denies writes
to the inode.
-/

set_option autoImplicit false

namespace Pintos.Filesys.File

open Lib.StateExcept Filesys.State InodeIo
open Inode

/-- `file_open`, which takes over the reference to the inode. -/
def fileOpen (inode : Option Nat) : FsM (Option Nat) := do
  let allocated ← malloc
  match inode, allocated with
  | some inode, true =>
    let ptr ← newPtr
    modify fun s => { s with files := ⟨ptr, inode, 0, false⟩ :: s.files }
    return some ptr
  | inode, _ =>
    inodeClose inode
    return none

/-- `file_reopen`. -/
def fileReopen (file : Nat) : FsM (Option Nat) := do
  let f ← derefFile file
  fileOpen (← inodeReopen (some f.inode))

/-- `file_deny_write`. -/
def fileDenyWrite (file : Nat) : FsM Unit := do
  let f ← derefFile file
  if f.denyWrite then
    return
  else
    updateFile file fun f => { f with denyWrite := true }
    inodeDenyWrite f.inode

/-- `file_allow_write`. -/
def fileAllowWrite (file : Nat) : FsM Unit := do
  let f ← derefFile file
  if f.denyWrite then
    updateFile file fun f => { f with denyWrite := false }
    inodeAllowWrite f.inode
  else
    return

/-- `file_duplicate`. -/
def fileDuplicate (file : Nat) : FsM (Option Nat) := do
  let f ← derefFile file
  match ← fileOpen (← inodeReopen (some f.inode)) with
  | none => return none
  | some nfile =>
    updateFile nfile fun g => { g with pos := f.pos }
    if f.denyWrite then
      fileDenyWrite nfile
    return some nfile

/-- `file_close`. -/
def fileClose (file : Option Nat) : FsM Unit := do
  match file with
  | none => return
  | some file =>
    fileAllowWrite file
    let f ← derefFile file
    inodeClose (some f.inode)
    modify fun s => s.dropFile file

/-- `file_read`. -/
def fileRead (file : Nat) (buffer : Nat → UInt8) (size : Int) : FsM (Nat × (Nat → UInt8)) := do
  let f ← derefFile file
  let (bytesRead, buffer) ← inodeReadAt f.inode buffer size f.pos
  updateFile file fun f => { f with pos := f.pos + bytesRead }
  return (bytesRead, buffer)

/-- `file_write`. -/
def fileWrite (file : Nat) (buffer : Nat → UInt8) (size : Int) : FsM Nat := do
  let f ← derefFile file
  let bytesWritten ← inodeWriteAt f.inode buffer size f.pos
  updateFile file fun f => { f with pos := f.pos + bytesWritten }
  return bytesWritten

/-- `file_length`. -/
def fileLength (file : Nat) : FsM Int := do
  let f ← derefFile file
  let i ← derefInode f.inode
  return i.length

/-- `file_seek`. -/
def fileSeek (file : Nat) (newPos : Int) : FsM Unit := do
  check (0 ≤ newPos) .fileSeekNonneg
  updateFile file fun f => { f with pos := newPos }

end Pintos.Filesys.File
