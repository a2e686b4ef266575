import Pintos.Filesys.FreeMap

/-!
# Inodes

`filesys/inode.c`: creating an inode on the disk, and the table of open inodes. Every sector has at
most one `struct inode`, shared by its openers; `inode_close` frees the sectors of a removed inode
with the last opener. Null pointers are `none`.
-/

set_option autoImplicit false

namespace Pintos.Filesys.Inode

open Lib.KeyedList Lib.StateExcept Lib.ByteMemory LibKernel
open Filesys.State FreeMap

/-- `bytes_to_sectors`: the sum is an `int`, the quotient is converted to `size_t`. -/
def bytesToSectors (size : Int) : Nat :=
  ((Int.bmod (size + sectorSize - 1) (2 ^ 32)).tdiv sectorSize % 2 ^ 64).toNat

/-- `INODE_MAGIC`. -/
def inodeMagic : Nat := 0x494e4f44

/-- The bytes of a `struct inode_disk`. -/
def inodeBlock (start : Nat) (length : Int) : Nat → UInt8 :=
  writeLE (writeLE (writeLE (fun _ => 0) 4 0 start) 4 4 (length % 2 ^ 32).toNat) 4 8 inodeMagic

/-- The member `start` of a `struct inode_disk`. -/
def blockStart (block : Nat → UInt8) : Nat := readLE block 4 0

/-- The member `length` of a `struct inode_disk`. -/
def blockLength (block : Nat → UInt8) : Int := Int.bmod (readLE block 4 4) (2 ^ 32)

/-- The loop of `inode_create` that clears the data, from the `i`-th sector on. -/
def zeroSectors (start : Nat) : Nat → Nat → FsM Unit
  | _, 0 => pure ()
  | i, n + 1 => do
    diskWrite ((start + i) % 2 ^ 32) fun _ => 0
    zeroSectors start (i + 1) n

/-- `inode_create`. -/
def inodeCreate (sector : Nat) (length : Int) : FsM Bool := do
  check (0 ≤ length) .inodeCreateLength
  if ← malloc then
    let sectors := bytesToSectors length
    match ← freeMapAllocate sectors with
    | none => return false
    | some start =>
      diskWrite sector (inodeBlock start length)
      zeroSectors start 0 sectors
      return true
  else
    return false

/-- `inode_reopen`. -/
def inodeReopen (inode : Option Nat) : FsM (Option Nat) := do
  match inode with
  | none => return none
  | some ptr =>
    updateInode ptr fun i => { i with openCnt := i.openCnt + 1 }
    return some ptr

/-- `inode_open`. -/
def inodeOpen (sector : Nat) : FsM (Option Nat) := do
  match lookup Inode.sector (← get).openInodes sector with
  | some i => inodeReopen (some i.ptr)
  | none =>
    if ← malloc then
      let ptr ← newPtr
      let block ← diskRead sector
      let inode : Inode := ⟨ptr, sector, 1, false, 0, blockStart block, blockLength block⟩
      modify fun s => { s with openInodes := inode :: s.openInodes }
      return some ptr
    else
      return none

/-- `inode_close`. -/
def inodeClose (inode : Option Nat) : FsM Unit := do
  match inode with
  | none => return
  | some ptr =>
    updateInode ptr fun i => { i with openCnt := i.openCnt - 1 }
    let i ← derefInode ptr
    if i.openCnt = 0 then
      modify fun s => s.dropInode ptr
      if i.removed then
        freeMapRelease i.sector 1
        freeMapRelease i.start (bytesToSectors i.length)

/-- `inode_remove`. -/
def inodeRemove (inode : Nat) : FsM Unit :=
  updateInode inode fun i => { i with removed := true }

/-- `inode_deny_write`. -/
def inodeDenyWrite (inode : Nat) : FsM Unit := do
  updateInode inode fun i => { i with denyWriteCnt := i.denyWriteCnt + 1 }
  let i ← derefInode inode
  check (i.denyWriteCnt ≤ i.openCnt) .denyWriteCnt

/-- `inode_allow_write`. -/
def inodeAllowWrite (inode : Nat) : FsM Unit := do
  let i ← derefInode inode
  check (0 < i.denyWriteCnt ∧ i.denyWriteCnt ≤ i.openCnt) .allowWriteCnt
  updateInode inode fun i => { i with denyWriteCnt := i.denyWriteCnt - 1 }

/-! ## Sizes and headers -/

variable {length : Int} {sector start : Nat}

/-- All sectors with data are counted, even where the sum in `bytes_to_sectors` overflows. -/
theorem lt_bytesToSectors {k : Nat} (hlen : length < 2 ^ 31)
    (hk : (sectorSize * k : Int) < length) :
    k < bytesToSectors length := by
  have hss : ((sectorSize : Nat) : Int) = 512 := rfl
  rw [bytesToSectors, hss]
  rw [hss] at hk
  by_cases hsmall : length + 511 < 2 ^ 31
  · have hsum : Int.bmod (length + 512 - 1) (2 ^ 32) = length + 511 := by
      rw [Int.bmod_def]
      split_ifs <;> omega
    rw [hsum, Int.tdiv_eq_ediv_of_nonneg (by omega)]
    omega
  · -- the sum is negative as an `int`, and the quotient huge as a `size_t`
    have hsum : Int.bmod (length + 512 - 1) (2 ^ 32) = -(2 ^ 32 - 511 - length) := by
      rw [Int.bmod_def]
      split_ifs <;> omega
    rw [hsum, Int.neg_tdiv, Int.tdiv_eq_ediv_of_nonneg (by omega)]
    omega

theorem le_bytesToSectors (hlen : length < 2 ^ 31) :
    length ≤ (sectorSize * bytesToSectors length : Nat) := by
  by_contra hlt
  have hself := lt_bytesToSectors hlen (k := bytesToSectors length) (by push_cast at hlt ⊢; omega)
  exact lt_irrefl _ hself

/-- The first data sector in the header of an inode. -/
def headerStart (disk : Bytes) (sector : Nat) : Nat :=
  blockStart fun i => disk (sectorSize * sector + i)

/-- The length in the header of an inode. -/
def headerLength (disk : Bytes) (sector : Nat) : Int :=
  blockLength fun i => disk (sectorSize * sector + i)

theorem headerLength_lt (disk : Bytes) (sector : Nat) : headerLength disk sector < 2 ^ 31 := by
  have h := Int.bmod_lt (x := readLE (fun i => disk (sectorSize * sector + i)) 4 4)
    (m := 2 ^ 32) (by norm_num)
  have hhalf : (((2 ^ 32 : Nat) : Int) + 1) / 2 = 2 ^ 31 := by norm_num
  exact h

/-- The header of an inode depends on the first eight bytes of its sector. -/
theorem header_congr {d d' : Bytes}
    (h : ∀ i < sectorSize, d' (sectorSize * sector + i) = d (sectorSize * sector + i)) :
    headerStart d' sector = headerStart d sector ∧
      headerLength d' sector = headerLength d sector := by
  have hss : sectorSize = 512 := rfl
  have hbytes : ∀ o, o + 4 ≤ 512 → readLE (fun i => d' (sectorSize * sector + i)) 4 o =
      readLE (fun i => d (sectorSize * sector + i)) 4 o := by
    intro o ho
    apply readLE_congr
    intro i hi
    exact h (o + i) (by omega)
  constructor
  · exact hbytes 0 (by norm_num)
  · unfold headerLength blockLength
    rw [hbytes 4 (by norm_num)]

/-- What `inode_create` writes is read back from the header. -/
theorem blockStart_inodeBlock (h : start < 2 ^ 32) :
    blockStart (inodeBlock start length) = start := by
  rw [blockStart, inodeBlock, readLE_writeLE_outside (by omega), readLE_writeLE_outside (by omega),
    readLE_writeLE]
  exact Nat.mod_eq_of_lt h

theorem bmod_of_lt {v : Nat} (h : v < 2 ^ 31) : Int.bmod v (2 ^ 32) = v := by
  rw [Int.bmod_def]
  split_ifs <;> omega

theorem blockLength_inodeBlock (h0 : 0 ≤ length) (h : length < 2 ^ 31) :
    blockLength (inodeBlock start length) = length := by
  have hread : readLE (inodeBlock start length) 4 4 = length.toNat := by
    have hmod : length % 2 ^ 32 = length := Int.emod_eq_of_lt h0 (by omega)
    rw [inodeBlock, readLE_writeLE_outside (by omega), readLE_writeLE, hmod]
    exact Nat.mod_eq_of_lt (by omega)
  have hnat : length.toNat < 2 ^ 31 := by omega
  unfold blockLength
  rw [hread, bmod_of_lt hnat, Int.toNat_of_nonneg h0]

/-! ## Creating an inode -/

section Rules

variable {s : Fs} {i : Inode} {ptr : Nat}

/-- The data is cleared as one range of the disk. -/
theorem wp_zeroSectors {i n : Nat} (hw : start + i + n ≤ 2 ^ 32) (Q : Unit → Fs → Prop) :
    wp (zeroSectors start i n) s Q ↔ (∀ k < n, Addressable s (start + i + k)) ∧
      Q () (s.patchDisk (sectorSize * (start + i)) (sectorSize * n) fun _ => 0) := by
  induction n generalizing s i with
  | zero => simp [zeroSectors]
  | succ n ih =>
    have hmod : (start + i) % 2 ^ 32 = start + i := Nat.mod_eq_of_lt (by omega)
    have hnext : sectorSize * (start + (i + 1)) = sectorSize * (start + i) + sectorSize := by ring
    have hlen : sectorSize * (n + 1) = sectorSize + sectorSize * n := by ring
    have happend :=
      s.patchDisk_append (sectorSize * (start + i)) (sectorSize * n) sectorSize fun _ => 0
    rw [zeroSectors, hmod, wp_bind, wp_diskWrite, ih (by omega), hnext, happend, hlen]
    constructor
    · rintro ⟨hfirst, hrest, hQ⟩
      refine ⟨?_, hQ⟩
      intro k hk
      cases k with
      | zero => exact hfirst
      | succ k =>
        have := hrest k (by omega)
        rwa [← add_assoc, add_right_comm] at this
    · rintro ⟨hall, hQ⟩
      refine ⟨hall 0 (by omega), ?_, hQ⟩
      intro k hk
      have := hall (k + 1) (by omega)
      rwa [← add_assoc, add_right_comm]

/-- The state after a header and cleared data are written. -/
def writeInode (s : Fs) (sector start : Nat) (length : Int) : Fs :=
  (s.patchDisk (sectorSize * sector) sectorSize (inodeBlock start length)).patchDisk
    (sectorSize * start) (sectorSize * bytesToSectors length) fun _ => 0

/-- **Creating an inode.** `inode_create` fails without effect when the data does not fit, and
otherwise writes the header and clears the data; `s'` is the state after the allocation. -/
theorem wp_inodeCreate {s' : Fs} (hf : s.failures = []) (hlen : 0 ≤ length)
    (hbits : s.freeMap.bitCnt ≤ bitmapError)
    (halloc : ∀ Q : Option Nat → Fs → Prop, wp (freeMapAllocate (bytesToSectors length)) s Q ↔
      (s.freeMap.scan 0 (bytesToSectors length) false = bitmapError → Q none s) ∧
      (s.freeMap.scan 0 (bytesToSectors length) false ≠ bitmapError →
        Q (some (s.freeMap.scan 0 (bytesToSectors length) false)) s')) (Q : Bool → Fs → Prop) :
    wp (inodeCreate sector length) s Q ↔
      (s.freeMap.scan 0 (bytesToSectors length) false = bitmapError → Q false s) ∧
      (s.freeMap.scan 0 (bytesToSectors length) false ≠ bitmapError → Addressable s' sector ∧
        (∀ k < bytesToSectors length,
          Addressable s' (s.freeMap.scan 0 (bytesToSectors length) false + k)) ∧
        Q true (writeInode s' sector (s.freeMap.scan 0 (bytesToSectors length) false) length)) := by
  rw [inodeCreate, wp_bind, wp_check, wp_bind, wp_malloc hf, if_pos rfl]
  simp only [wp_bind]
  rw [halloc]
  generalize hstart : s.freeMap.scan 0 (bytesToSectors length) false = start
  simp only [hlen, true_and]
  apply and_congr
  · simp
  · apply imp_congr_right
    intro he
    have hle : start + 0 + bytesToSectors length ≤ 2 ^ 32 := by
      rw [← hstart] at he
      have hscan := (Bitmap.scan_spec he).2.1
      simp only [bitmapError] at hbits
      omega
    simp only [wp_bind, wp_diskWrite, wp_zeroSectors hle, wp_pure]
    exact Iff.rfl

/-- The same as a rule about the calls that return: a negative length or a sector outside the disk
stops the kernel. -/
theorem wlp_inodeCreate {s' : Fs} (hf : s.failures = []) (hbits : s.freeMap.bitCnt ≤ bitmapError)
    (halloc : ∀ Q : Option Nat → Fs → Prop, wp (freeMapAllocate (bytesToSectors length)) s Q ↔
      (s.freeMap.scan 0 (bytesToSectors length) false = bitmapError → Q none s) ∧
      (s.freeMap.scan 0 (bytesToSectors length) false ≠ bitmapError →
        Q (some (s.freeMap.scan 0 (bytesToSectors length) false)) s')) {Q : Bool → Fs → Prop}
    (hfail : s.freeMap.scan 0 (bytesToSectors length) false = bitmapError → Q false s)
    (hcreate : 0 ≤ length → s.freeMap.scan 0 (bytesToSectors length) false ≠ bitmapError →
      Addressable s' sector →
      (∀ k < bytesToSectors length,
        Addressable s' (s.freeMap.scan 0 (bytesToSectors length) false + k)) →
      Q true (writeInode s' sector (s.freeMap.scan 0 (bytesToSectors length) false) length)) :
    wlp (inodeCreate sector length) s Q := by
  intro b t hrun
  by_cases hlen : 0 ≤ length
  · have hself : wp (inodeCreate sector length) s fun c v => c = b ∧ v = t := ⟨b, t, hrun, rfl, rfl⟩
    rw [wp_inodeCreate hf hlen hbits halloc] at hself
    by_cases hscan : s.freeMap.scan 0 (bytesToSectors length) false = bitmapError
    · obtain ⟨rfl, rfl⟩ := hself.1 hscan
      exact hfail hscan
    · obtain ⟨haddr, haddrs, rfl, rfl⟩ := hself.2 hscan
      exact hcreate hlen hscan haddr haddrs
  · have hpanic : wlp (inodeCreate sector length) s Q := by
      rw [inodeCreate, wlp_bind, wlp_check]
      exact fun h0 => absurd h0 hlen
    exact hpanic b t hrun

/-! ## The table of open inodes -/

/-- The state with one more opener of an inode. -/
def reopened (s : Fs) (ptr : Nat) : Fs :=
  s.mapInode ptr fun i => { i with openCnt := i.openCnt + 1 }

/-- The state with one opener of an inode less. -/
def unshared (s : Fs) (ptr : Nat) : Fs :=
  s.mapInode ptr fun i => { i with openCnt := i.openCnt - 1 }

/-- The `struct inode` for a sector that is opened. -/
def loadInode (s : Fs) (sector : Nat) : Inode :=
  ⟨s.nextPtr, sector, 1, false, 0, headerStart s.disk sector, headerLength s.disk sector⟩

/-- The state with a `struct inode` for a sector. -/
def loaded (s : Fs) (sector : Nat) : Fs :=
  { s with openInodes := loadInode s sector :: s.openInodes, nextPtr := s.nextPtr + 1 }

@[simp] theorem wp_inodeReopen (ptr : Nat) (Q : Option Nat → Fs → Prop) :
    wp (inodeReopen (some ptr)) s Q ↔ Q (some ptr) (reopened s ptr) := by
  simp [inodeReopen, reopened]

theorem wp_inodeOpen_shared (h : lookup Inode.sector s.openInodes sector = some i)
    (Q : Option Nat → Fs → Prop) :
    wp (inodeOpen sector) s Q ↔ Q (some i.ptr) (reopened s i.ptr) := by
  simp [inodeOpen, h]

theorem wp_inodeOpen_new (hf : s.failures = []) (h : lookup Inode.sector s.openInodes sector = none)
    (Q : Option Nat → Fs → Prop) :
    wp (inodeOpen sector) s Q ↔ Addressable s sector ∧ Q (some s.nextPtr) (loaded s sector) := by
  simp only [inodeOpen, wp_bind, wp_get, h, wp_malloc hf, if_true, wp_newPtr,
    wp_diskRead, wp_modify, wp_pure]
  exact Iff.rfl

/-- The pointer still leads to the inode after its openers are counted down. -/
theorem lookup_unshared (h : lookup Inode.ptr s.openInodes ptr = some i) :
    lookup Inode.ptr (unshared s ptr).openInodes ptr = some { i with openCnt := i.openCnt - 1 } :=
  lookup_update_self (fun _ => rfl) h

theorem wp_inodeClose_shared (h : lookup Inode.ptr s.openInodes ptr = some i) (hcnt : i.openCnt ≠ 1)
    (Q : Unit → Fs → Prop) :
    wp (inodeClose (some ptr)) s Q ↔ Q () (unshared s ptr) := by
  have hne : ¬ i.openCnt - 1 = 0 := fun e => hcnt (by omega)
  rw [inodeClose, wp_bind, wp_updateInode, wp_bind, ← unshared, wp_derefInode (lookup_unshared h),
    if_neg hne, wp_pure]

/-- The last opener takes the inode out of the table, and frees its sectors if it is removed. -/
theorem wp_inodeClose_last (h : lookup Inode.ptr s.openInodes ptr = some i) (hcnt : i.openCnt = 1)
    (Q : Unit → Fs → Prop) :
    wp (inodeClose (some ptr)) s Q ↔
      (i.removed = false → Q () (s.dropInode ptr)) ∧
      (i.removed = true → wp (freeMapRelease i.sector 1) (s.dropInode ptr) fun _ t =>
        wp (freeMapRelease i.start (bytesToSectors i.length)) t Q) := by
  have hzero : i.openCnt - 1 = 0 := by omega
  have hdrop : (unshared s ptr).dropInode ptr = s.dropInode ptr := by
    have herase : erase Inode.ptr (unshared s ptr).openInodes ptr =
        erase Inode.ptr s.openInodes ptr := erase_update fun _ => rfl
    rw [Fs.dropInode, herase]
    rfl
  rw [inodeClose, wp_bind, wp_updateInode, wp_bind, ← unshared, wp_derefInode (lookup_unshared h),
    if_pos hzero, wp_bind, wp_modify, hdrop]
  cases i.removed with
  | true => simp
  | false => simp

end Rules

end Pintos.Filesys.Inode
