import Pintos.Filesys.InodeIo

/-!
# The free map

`filesys/free-map.c`: one bit for each sector, in memory and, once the free map file is open, copied
to that file at each change. While allocation succeeds and the file is open on an inode long enough,
`free_map_allocate` takes the first run of free sectors and `free_map_release` frees sectors, and
both leave the new map in the file (`wp_freeMapAllocate`, `wp_freeMapRelease`).
-/

set_option autoImplicit false

namespace Pintos.Filesys.FreeMap

open Lib.KeyedList Lib.StateExcept LibKernel
open Filesys.State InodeIo

/-- `file_read_at`. -/
def fileReadAt (file : Nat) (buffer : Nat → UInt8) (size fileOfs : Int) :
    FsM (Nat × (Nat → UInt8)) := do
  let f ← derefFile file
  inodeReadAt f.inode buffer size fileOfs

/-- `file_write_at`. -/
def fileWriteAt (file : Nat) (buffer : Nat → UInt8) (size fileOfs : Int) : FsM Nat := do
  let f ← derefFile file
  inodeWriteAt f.inode buffer size fileOfs

/-- `bitmap_write`, for the free map: whether all its bytes are written. -/
def bitmapWrite (file : Nat) : FsM Bool := do
  let b := (← get).freeMap
  let size := byteCnt b.bitCnt
  let written ← fileWriteAt file b.byte size 0
  return written = size

/-- `bitmap_read`, into the free map. -/
def bitmapRead (file : Nat) : FsM Bool := do
  let b := (← get).freeMap
  if 0 < b.bitCnt then
    let size := byteCnt b.bitCnt
    let (n, buffer) ← fileReadAt file b.byte size 0
    modify fun s => { s with freeMap := b.ofBytes buffer }
    return n = size
  else
    return true

/-- `free_map_allocate`: the first sector, or `none` for false. -/
def freeMapAllocate (cnt : Nat) : FsM (Option Nat) := do
  let (idx, map) := (← get).freeMap.scanAndFlip 0 cnt false
  modify fun s => { s with freeMap := map }
  let sector := idx % 2 ^ 32
  if sector = bitmapError then
    return none
  else
    match (← get).freeMapFile with
    | none => return some sector
    | some file =>
      if ← bitmapWrite file then
        return some sector
      else
        modify fun s => { s with freeMap := s.freeMap.setMultiple sector cnt false }
        return none

/-- `free_map_release`. -/
def freeMapRelease (sector cnt : Nat) : FsM Unit := do
  let map := (← get).freeMap
  check (sector ≤ map.bitCnt ∧ sector + cnt ≤ map.bitCnt) .bitmapRange
  check (map.all sector cnt = true) .freeMapReleaseUsed
  modify fun s => { s with freeMap := map.setMultiple sector cnt false }
  match (← get).freeMapFile with
  | none => throw .badPointer
  | some file =>
    let _ ← bitmapWrite file
    return

/-! ## The map and its file -/

section Stored

variable {s : Fs} {i : Inode}

/-- The free map file is open on the inode `i`, which holds the map exactly and can be written. -/
structure MapFile (s : Fs) (i : Inode) : Prop where
  opened : ∃ f, s.freeMapFile = some f.ptr ∧ lookup File.ptr s.files f.ptr = some f ∧
    lookup Inode.ptr s.openInodes f.inode = some i
  length : i.length = byteCnt s.freeMap.bitCnt
  onDisk : DataOnDisk s i
  writable : i.denyWriteCnt = 0

/-- The state with a new free map, also in the file on the inode `i`. -/
def storeMap (s : Fs) (i : Inode) (map : Bitmap) : Fs :=
  Fs.patchDisk { s with freeMap := map } (dataAddr i 0) (byteCnt map.bitCnt) map.byte

/-- `bitmap_write` copies a new map to the file. -/
theorem wp_bitmapWrite {map : Bitmap} {file : Nat} (hf : s.failures = []) (hm : MapFile s i)
    (hfile : s.freeMapFile = some file) (hbits : map.bitCnt = s.freeMap.bitCnt)
    (Q : Bool → Fs → Prop) :
    wp (bitmapWrite file) { s with freeMap := map } Q ↔ Q true (storeMap s i map) := by
  obtain ⟨f, hptr, hlookup, hinode⟩ := hm.opened
  obtain rfl : f.ptr = file := Option.some.inj (hptr.symm.trans hfile)
  have hlen : i.length = byteCnt map.bitCnt := by rw [hbits, hm.length]
  have hcnt : transferCnt i (byteCnt map.bitCnt) 0 = byteCnt map.bitCnt := by
    rw [transferCnt, hlen]
    omega
  have hd : DataOnDisk { s with freeMap := map } i := hm.onDisk.congr rfl
  simp only [bitmapWrite, fileWriteAt, wp_bind, wp_get, wp_pure]
  rw [wp_derefFile (s := { s with freeMap := map }) hlookup,
    wp_inodeWriteAt (s := { s with freeMap := map }) hf hinode hd (le_refl 0) hm.writable, hcnt]
  simp only [decide_true]
  exact Iff.rfl

/-- **Allocation.** `free_map_allocate` fails without effect when no run of `cnt` sectors is free,
and otherwise takes the run that `bitmap_scan` finds. -/
theorem wp_freeMapAllocate {cnt : Nat} (hf : s.failures = []) (hm : MapFile s i)
    (hbits : s.freeMap.bitCnt ≤ bitmapError) (Q : Option Nat → Fs → Prop) :
    wp (freeMapAllocate cnt) s Q ↔
      (s.freeMap.scan 0 cnt false = bitmapError → Q none s) ∧
      (s.freeMap.scan 0 cnt false ≠ bitmapError → Q (some (s.freeMap.scan 0 cnt false))
        (storeMap s i (s.freeMap.setMultiple (s.freeMap.scan 0 cnt false) cnt true))) := by
  obtain ⟨f, hptr, -, -⟩ := hm.opened
  simp only [freeMapAllocate, Bitmap.scanAndFlip, wp_bind, wp_get, wp_modify,
    Nat.mod_eq_of_lt (Bitmap.scan_lt hbits)]
  by_cases he : s.freeMap.scan 0 cnt false = bitmapError
  · simp [he]
  · have hwrite := wp_bitmapWrite hf hm hptr (@Bitmap.setMultiple_bitCnt s.freeMap
      (s.freeMap.scan 0 cnt false) cnt true)
    simp only [hptr] at hwrite
    simp [he, hptr, hwrite]

/-- **Release.** `free_map_release` frees sectors that are all in use. -/
theorem wp_freeMapRelease {sector cnt : Nat} (hf : s.failures = []) (hm : MapFile s i)
    (hle : sector + cnt ≤ s.freeMap.bitCnt)
    (hall : ∀ k, sector ≤ k → k < sector + cnt → s.freeMap.test k = true)
    (Q : Unit → Fs → Prop) :
    wp (freeMapRelease sector cnt) s Q ↔
      Q () (storeMap s i (s.freeMap.setMultiple sector cnt false)) := by
  obtain ⟨f, hptr, -, -⟩ := hm.opened
  have hwrite := wp_bitmapWrite hf hm hptr (@Bitmap.setMultiple_bitCnt s.freeMap sector cnt false)
  simp only [hptr] at hwrite
  have hrange : sector ≤ s.freeMap.bitCnt := le_trans (Nat.le_add_right _ _) hle
  have hused : s.freeMap.all sector cnt = true := Bitmap.all_eq_true.2 hall
  simp [freeMapRelease, hrange, hle, hused, hptr, hwrite]

end Stored

end Pintos.Filesys.FreeMap
