import Pintos.Filesys.Directory

/-!
# The file system

`filesys/filesys.c`, without the FAT variant, and the parts of `filesys/free-map.c` that create and
open the free map file.
-/

set_option autoImplicit false

namespace Pintos.Filesys.Operations

open Lib.StateExcept LibKernel Filesys.State
open FreeMap Inode Filesys.File Directory

/-- The steps of `filesys_create` up to the first that fails: whether all succeed, and the header
sector, `0` when none is allocated. -/
def createSteps (dir : Option Dir) (name : CString) (initialSize : Int) : FsM (Bool × Nat) := do
  match dir with
  | none => return (false, 0)
  | some dir =>
    match ← freeMapAllocate 1 with
    | none => return (false, 0)
    | some inodeSector =>
      if ← inodeCreate inodeSector initialSize then
        let added ← dirAdd dir name inodeSector
        return (added, inodeSector)
      else
        return (false, inodeSector)

/-- `filesys_create`. -/
def filesysCreate (name : CString) (initialSize : Int) : FsM Bool := do
  let dir ← dirOpenRoot
  let (success, inodeSector) ← createSteps dir name initialSize
  if success = false ∧ inodeSector ≠ 0 then
    freeMapRelease inodeSector 1
  dirClose dir
  return success

/-- `filesys_open`. -/
def filesysOpen (name : CString) : FsM (Option Nat) := do
  let dir ← dirOpenRoot
  let inode ← match dir with
    | none => pure none
    | some dir => dirLookup dir name
  dirClose dir
  fileOpen inode

/-- `filesys_remove`. -/
def filesysRemove (name : CString) : FsM Bool := do
  let dir ← dirOpenRoot
  let success ← match dir with
    | none => pure false
    | some dir => dirRemove dir name
  dirClose dir
  return success

/-! ## Formatting -/

/-- `free_map_init`, with the bytes that `malloc` finds. -/
def freeMapInit (junk : Nat → BitVec 64) : FsM Unit := do
  let capacity := (← get).capacity
  if (← malloc) && (← malloc) then
    let map := Bitmap.create capacity junk
    modify fun s => { s with freeMap := (map.mark freeMapSector).mark rootDirSector }
  else
    throw .bitmapCreation

/-- Open the free map file: the common part of `free_map_create` and `free_map_open`. -/
def openMapFile : FsM Nat := do
  match ← fileOpen (← inodeOpen freeMapSector) with
  | none => throw .freeMapOpen
  | some file =>
    modify fun s => { s with freeMapFile := some file }
    return file

/-- `free_map_create`. -/
def freeMapCreate : FsM Unit := do
  let created ← inodeCreate freeMapSector (byteCnt (← get).freeMap.bitCnt)
  check (created = true) .freeMapCreation
  let file ← openMapFile
  let written ← bitmapWrite file
  check (written = true) .freeMapWrite

/-- `free_map_close`. -/
def freeMapClose : FsM Unit := do
  fileClose (← get).freeMapFile

/-- `filesys_done`. -/
def filesysDone : FsM Unit := freeMapClose

/-- `free_map_open`. -/
def freeMapOpen : FsM Unit := do
  let file ← openMapFile
  let read ← bitmapRead file
  check (read = true) .freeMapRead

/-- `do_format`. -/
def doFormat : FsM Unit := do
  freeMapCreate
  let created ← inodeCreate rootDirSector (16 * entrySize : Nat)
  check (created = true) .rootDirCreation
  freeMapClose

/-- `filesys_init`, once the disk is found. -/
def filesysInit (format : Bool) (junk : Nat → BitVec 64) : FsM Unit := do
  modify fun s => { s with openInodes := [] }
  freeMapInit junk
  if format then
    doFormat
  freeMapOpen

end Pintos.Filesys.Operations
