import Pintos.Filesys.FreeMap

/-!
# Allocation of sectors when a write fails

`free_map_allocate` marks the sectors in memory, writes the whole map to its file and takes the
marks back when the write fails. `inode_write_at` stores the whole sectors of the map directly and
needs a bounce buffer for the rest, so a write that fails has stored a part of the map
(`storedBits`), and this part is not taken back. When the file is in step with the map,
`allocate_allOrNothing_iff` says where the free sectors have to lie for that to be seen
(`MarksStored`), and for any file what it has to hold (`TornWrite`).
-/

set_option autoImplicit false

namespace Pintos.Filesys.AllocationFailure

open Lib.KeyedList Lib.StateExcept Lib.ByteMemory LibKernel
open Filesys.State InodeIo FreeMap

/-! ## A write from the start of an inode -/

section Write

variable {s : Fs} {i : Inode} {buffer : Nat → UInt8}

/-- Of `n` bytes, those that can be stored: all of them, or only whole sectors when there is no
bounce buffer. -/
def storable (s : Fs) (n : Nat) : Nat := if s.allocFails then n - n % sectorSize else n

/-- The number of bytes that a write of `size` bytes from the start of the inode stores. -/
def storedCnt (s : Fs) (i : Inode) (size : Nat) : Nat :=
  if i.denyWriteCnt ≠ 0 then 0 else storable s (transferCnt i size 0)

/-- The state after bytes are written, but for the allocations to come. -/
def Wrote (s t : Fs) (a n : Nat) (f : Nat → UInt8) : Prop :=
  t = { s.patchDisk a n f with failures := t.failures }

theorem storable_zero (s : Fs) : storable s 0 = 0 := by
  rw [storable]
  split <;> rfl

theorem storable_sector (s : Fs) (n : Nat) :
    storable s (sectorSize + n) = sectorSize + storable s n := by
  simp only [storable, sectorSize]
  split <;> omega

/-- The last chunk is a partial one. -/
theorem transferCnt_last {size offset : Int} (h0 : 0 ≤ offset) (hofs : offset.toNat % 512 = 0)
    (hsize : 0 < size) (hlt : chunkSize i size offset ≠ sectorSize) :
    transferCnt i size offset = (chunkSize i size offset).toNat := by
  have hmod : offset.tmod sectorSize = 0 := by
    rw [Int.tmod_eq_emod_of_nonneg h0]
    simp only [sectorSize]
    omega
  have h512 : ((sectorSize : Nat) : Int) = 512 := rfl
  have hmin : chunkSize i size offset = min size (min (i.length - offset) 512) := by
    simp only [chunkSize]
    split_ifs <;> omega
  rw [transferCnt, hmin]
  omega

/-- The loop of `inode_write_at` from the start of a sector: the chunks are whole sectors but for
the last, so the bounce buffer is needed once at most, and at the end. -/
theorem wp_writeLoop_aligned {fuel : Nat} {size offset : Int} {done : Nat} {Q : Nat → Fs → Prop}
    (hd : DataOnDisk s i) (h0 : 0 ≤ offset) (hofs : offset.toNat % 512 = 0)
    (hfuel : size.toNat ≤ fuel)
    (hQ : ∀ t, Wrote s t (dataAddr i offset) (storable s (transferCnt i size offset))
      (fun j => buffer (done + j)) → Q (done + storable s (transferCnt i size offset)) t) :
    wp (writeLoop i buffer fuel size offset done false) s Q := by
  induction fuel generalizing s size offset done with
  | zero =>
    rw [transferCnt_eq_zero (by omega), storable_zero] at hQ
    rw [writeLoop, wp_pure]
    exact hQ s (by rw [Wrote, Fs.patchDisk_zero])
  | succ fuel ih =>
    rw [writeLoop, wp_ite]
    constructor
    · intro hsize
      rw [transferCnt_eq_zero (Or.inl hsize), storable_zero] at hQ
      rw [wp_pure]
      exact hQ s (by rw [Wrote, Fs.patchDisk_zero])
    intro hsize
    obtain ⟨hpos, hle, hleft, hsector⟩ := chunkSize_facts (i := i) h0 (not_le.1 hsize)
    have hlast := transferCnt_last (i := i) h0 hofs (not_le.1 hsize)
    have hmod : offset.tmod sectorSize = 0 := by
      rw [Int.tmod_eq_emod_of_nonneg h0]
      simp only [sectorSize]
      omega
    rw [wp_ite]
    constructor
    · intro hchunk
      have hend : i.length ≤ offset := not_lt.1 fun hlt => not_lt.2 hchunk (hpos.2 hlt)
      rw [transferCnt_eq_zero (Or.inr hend), storable_zero] at hQ
      rw [wp_pure]
      exact hQ s (by rw [Wrote, Fs.patchDisk_zero])
    intro hchunk
    have hc0 : 0 < chunkSize i size offset := not_le.1 hchunk
    obtain ⟨hidx, haddr⟩ := byteToSector_eq hd h0 (hpos.1 hc0)
    by_cases hwhole : chunkSize i size offset = sectorSize
    · -- a whole sector, and then the rest from the start of the next one
      have hsplit := transferCnt_chunk hc0.le hle hleft
      have hbyte : sectorSize * (i.start + offset.toNat / 512) = dataAddr i offset := by
        simp only [dataAddr, sectorSize]
        omega
      rw [hwhole] at hsplit hle hleft hsector ⊢
      rw [wp_bind, writeChunk, hmod, if_pos ⟨rfl, rfl⟩, writeDirect, hidx, wp_bind,
        wp_diskWrite, wp_pure, hbyte]
      refine ⟨haddr, ?_⟩
      have hss : ((sectorSize : Nat) : Int).toNat = sectorSize := rfl
      have h512 : sectorSize = 512 := rfl
      refine ih (s := s.patchDisk _ _ _) (hd.congr rfl) (by omega) (by omega) (by omega) ?_
      intro t ht
      have hsame : ∀ n, storable (s.patchDisk (dataAddr i offset) sectorSize fun j =>
          buffer (done + j)) n = storable s n := fun _ => rfl
      rw [hsame] at ht ⊢
      rw [hsplit, hss, storable_sector, ← add_assoc] at hQ
      apply hQ
      have hnext : dataAddr i (offset + sectorSize) = dataAddr i offset + sectorSize :=
        dataAddr_chunk h0 (Int.natCast_nonneg _)
      rw [Wrote] at ht ⊢
      rw [ht, hnext, ← Fs.patchDisk_append]
      simp only [hss, add_assoc]
    · -- less than a sector, through the bounce buffer if there is one
      have hsmall : ¬ (offset.tmod sectorSize = 0 ∧ chunkSize i size offset = sectorSize) :=
        fun h => hwhole h.2
      have hn := hlast hwhole
      have h512 : sectorSize = 512 := rfl
      have hnone : transferCnt i size offset - transferCnt i size offset % sectorSize = 0 := by
        have hlt : (chunkSize i size offset).toNat < sectorSize := by omega
        rw [hn, Nat.mod_eq_of_lt hlt, Nat.sub_self]
      have hloop : wp (writeLoop i buffer (fuel + 1) size offset done false) s Q := by
        rw [wp_writeLoop_unbuffered hsize hchunk hsmall]
        unfold storable at hQ
        cases hfails : s.allocFails with
        | true =>
          rw [hfails, if_pos rfl, hnone] at hQ
          exact hQ s.afterAlloc (by rw [Wrote, Fs.patchDisk_zero]; rfl)
        | false =>
          rw [hfails, if_neg Bool.false_ne_true] at hQ
          apply wp_writeLoop (s := s.afterAlloc) (Or.inl rfl) (hd.congr rfl) h0 hfuel
          exact hQ _ rfl
      rwa [writeLoop, if_neg hsize, if_neg hchunk] at hloop

/-- `inode_write_at` from the start of the inode, whatever the allocations do. -/
theorem wp_inodeWriteAt_start {ptr size : Nat} (hi : lookup Inode.ptr s.openInodes ptr = some i)
    (hd : DataOnDisk s i) : wp (inodeWriteAt ptr buffer size 0) s fun n t =>
      n = storedCnt s i size ∧ Wrote s t (dataAddr i 0) n buffer := by
  rw [inodeWriteAt, wp_bind, wp_derefInode hi, storedCnt, wp_ite]
  constructor
  · intro hdeny
    rw [if_pos hdeny, wp_pure]
    exact ⟨rfl, by rw [Wrote, Fs.patchDisk_zero]⟩
  · intro hdeny
    rw [if_neg hdeny]
    apply wp_writeLoop_aligned hd (le_refl 0) rfl (le_refl _)
    intro t ht
    rw [zero_add]
    simp only [zero_add] at ht
    exact ⟨rfl, ht⟩

end Write

/-! ## `free_map_allocate` -/

section Allocate

variable {s t : Fs} {i : Inode} {cnt : Nat}

/-- The free map file, if there is one, is open on the inode `i`, and its data is on the disk. -/
structure MapOpen (s : Fs) (i : Inode) : Prop where
  opened : ∀ file, s.freeMapFile = some file → ∃ f, lookup File.ptr s.files file = some f ∧
    lookup Inode.ptr s.openInodes f.inode = some i
  onDisk : DataOnDisk s i

/-- The free sectors from `sector` on are a run of `cnt`. -/
def FreeRun (map : Bitmap) (cnt sector : Nat) : Prop :=
  sector + cnt ≤ map.bitCnt ∧ ∀ k, sector ≤ k → k < sector + cnt → map.test k = false

/-- The first run of `cnt` free sectors. -/
def FirstRun (map : Bitmap) (cnt sector : Nat) : Prop :=
  FreeRun map cnt sector ∧ ∀ k < sector, ¬ FreeRun map cnt k

/-- The free map file holds the map. -/
def FileHolds (s : Fs) (i : Inode) (map : Bitmap) : Prop :=
  ∀ k < byteCnt map.bitCnt, s.disk (dataAddr i k) = map.byte k

/-- `bitmap_write` cannot store the whole map: writes to its file are denied, or the file is shorter
than the map, or the map does not end with a sector and there is no memory for a bounce buffer. -/
def WriteFails (s : Fs) (i : Inode) : Prop :=
  s.freeMapFile ≠ none ∧ (i.denyWriteCnt ≠ 0 ∧ 0 < byteCnt s.freeMap.bitCnt ∨
    i.length.toNat < byteCnt s.freeMap.bitCnt ∨
    s.allocFails = true ∧ byteCnt s.freeMap.bitCnt % sectorSize ≠ 0)

/-- What `free_map_allocate` has done when it returns: the sector that it stores in `*sectorp`, or
`none` for false. -/
def AllOrNothing (s : Fs) (i : Inode) (cnt : Nat) : Option Nat → Fs → Prop
  | some sector, t =>
    FirstRun s.freeMap cnt sector ∧
      (∀ k, t.freeMap.test k = if sector ≤ k ∧ k < sector + cnt then true else s.freeMap.test k) ∧
      (s.freeMapFile ≠ none → FileHolds t i t.freeMap)
  | none, t =>
    t.freeMap = s.freeMap ∧
      (s.freeMapFile ≠ none → ∀ k < i.length.toNat, t.disk (dataAddr i k) = s.disk (dataAddr i k)) ∧
      (¬ WriteFails s i → ∀ sector, ¬ FreeRun s.freeMap cnt sector)

/-- The file has the bits of the sectors below this one where a write can store them: as far as it
is long enough and, without a bounce buffer, in whole sectors. -/
def storedBits (s : Fs) (i : Inode) : Nat :=
  8 * storable s (min (byteCnt s.freeMap.bitCnt) i.length.toNat)

/-- Bit `k` of the free map file. -/
def fileBit (s : Fs) (i : Inode) (k : Nat) : Bool :=
  (s.disk (dataAddr i (k / 8 : Nat))).toNat.testBit (k % 8)

/-- As far as the file is long enough, it holds the map. -/
def InStep (s : Fs) (i : Inode) : Prop :=
  ∀ k < 8 * min (byteCnt s.freeMap.bitCnt) i.length.toNat, fileBit s i k = s.freeMap.test k

/-- The write of the map fails after it has begun, and some run of `cnt` free sectors begins where
it could still store. -/
def MarksStored (s : Fs) (i : Inode) (cnt : Nat) : Prop :=
  WriteFails s i ∧ i.denyWriteCnt = 0 ∧ 0 < cnt ∧
    ∃ sector < storedBits s i, FreeRun s.freeMap cnt sector

/-- The write of the map fails after it has begun, and where it could still store, the file is not
the map with the first run of `cnt` sectors marked. -/
def TornWrite (s : Fs) (i : Inode) (cnt : Nat) : Prop :=
  WriteFails s i ∧ i.denyWriteCnt = 0 ∧ ∃ sector, FirstRun s.freeMap cnt sector ∧
    ∃ k < storedBits s i,
      fileBit s i k ≠ (decide (sector ≤ k ∧ k < sector + cnt) || s.freeMap.test k)

/-- The map with the run that `bitmap_scan` finds marked. -/
def flipped (s : Fs) (cnt : Nat) : Bitmap :=
  s.freeMap.setMultiple (s.freeMap.scan 0 cnt false) cnt true

theorem storedCnt_le (s : Fs) (i : Inode) (size : Nat) :
    storedCnt s i size ≤ size ∧ storedCnt s i size ≤ i.length.toNat := by
  simp only [storedCnt, storable, transferCnt]
  split
  · exact ⟨Nat.zero_le _, Nat.zero_le _⟩
  · split <;> omega

theorem transferCnt_start (i : Inode) (n : Nat) : transferCnt i n 0 = min n i.length.toNat := by
  rw [transferCnt]
  omega

theorem storedBits_eq (hdeny : i.denyWriteCnt = 0) :
    storedBits s i = 8 * storedCnt s i (byteCnt s.freeMap.bitCnt) := by
  rw [storedBits, storedCnt, if_neg (not_not.2 hdeny), transferCnt_start]

theorem writeFails_iff : WriteFails s i ↔
    s.freeMapFile ≠ none ∧ storedCnt s i (byteCnt s.freeMap.bitCnt) ≠ byteCnt s.freeMap.bitCnt := by
  rw [WriteFails]
  generalize byteCnt s.freeMap.bitCnt = n
  refine and_congr_right fun _ => ?_
  simp only [storedCnt, storable, transferCnt_start, sectorSize]
  generalize i.length.toNat = l
  grind

/-- The bits of a byte of the map. -/
theorem testBit_byte (map : Bitmap) (k : Nat) :
    (map.byte (k / 8)).toNat.testBit (k % 8) = map.test k := by
  have h256 : (256 : Nat) = 2 ^ 8 := rfl
  have hk : k % 8 < 8 := Nat.mod_lt _ (by decide)
  have hbit : k % 8 + k / 8 % 8 * 8 = k % 64 := by omega
  rw [Bitmap.byte, byteLE, UInt8.toNat_ofNat', h256, ← pow_mul, Nat.testBit_mod_two_pow,
    decide_eq_true hk, Bool.true_and, Nat.testBit_div_two_pow, mul_comm, hbit,
    Nat.div_div_eq_div_mul,
    Bitmap.test_eq]
  rfl

/-- A byte is its bits. -/
theorem exists_testBit_ne {a b : UInt8} (h : a ≠ b) :
    ∃ j < 8, a.toNat.testBit j ≠ b.toNat.testBit j := by
  by_contra hall
  refine h (UInt8.toNat_inj.1 (Nat.eq_of_testBit_eq fun j => ?_))
  by_cases hj : j < 8
  · exact not_not.1 fun hne => hall ⟨j, hj, hne⟩
  · have hpow : 2 ^ 8 ≤ 2 ^ j := Nat.pow_le_pow_right (by decide) (by omega)
    rw [Nat.testBit_lt_two_pow (a.toNat_lt.trans_le hpow),
      Nat.testBit_lt_two_pow (b.toNat_lt.trans_le hpow)]

/-- `bitmap_write` of a new map. -/
theorem wp_bitmapWrite_failing {map : Bitmap} {file : Nat} (hm : MapOpen s i)
    (hfile : s.freeMapFile = some file) (hbits : map.bitCnt = s.freeMap.bitCnt) :
    wp (bitmapWrite file) { s with freeMap := map } fun r t =>
      (r = true ↔ ¬ WriteFails s i) ∧ Wrote { s with freeMap := map } t (dataAddr i 0)
        (storedCnt s i (byteCnt s.freeMap.bitCnt)) map.byte := by
  obtain ⟨f, hlookup, hinode⟩ := hm.opened file hfile
  have hd : DataOnDisk { s with freeMap := map } i := hm.onDisk.congr rfl
  rw [bitmapWrite, wp_bind, wp_get]
  rw [wp_bind, fileWriteAt, wp_bind, wp_derefFile (s := { s with freeMap := map }) hlookup, hbits]
  refine wp_mono (wp_inodeWriteAt_start (s := { s with freeMap := map }) hinode hd) ?_
  rintro n t ⟨rfl, ht⟩
  rw [wp_pure]
  refine ⟨?_, ht⟩
  have hsome : s.freeMapFile ≠ none := by
    rw [hfile]
    exact Option.some_ne_none file
  rw [decide_eq_true_iff, writeFails_iff, not_and, not_not]
  exact ⟨fun h _ => h, fun h => h hsome⟩

/-- The bit of the first sector is not free any more, and the others of the run neither. -/
theorem test_flipped (h : s.freeMap.scan 0 cnt false ≠ bitmapError) (k : Nat) :
    (flipped s cnt).test k =
      if s.freeMap.scan 0 cnt false ≤ k ∧ k < s.freeMap.scan 0 cnt false + cnt then true
      else s.freeMap.test k :=
  Bitmap.test_setMultiple (Bitmap.scan_spec h).2.1

/-- Taking the marks back restores the map. -/
theorem unflipped (h : s.freeMap.scan 0 cnt false ≠ bitmapError) :
    (flipped s cnt).setMultiple (s.freeMap.scan 0 cnt false) cnt false = s.freeMap := by
  obtain ⟨-, hle, hfree⟩ := Bitmap.scan_spec h
  apply Bitmap.eq_of_test
  · rw [Bitmap.setMultiple_bitCnt, flipped, Bitmap.setMultiple_bitCnt]
  · intro k
    rw [Bitmap.test_setMultiple (by rwa [flipped, Bitmap.setMultiple_bitCnt]), test_flipped h]
    split
    · rename_i hin
      exact (hfree k hin.1 hin.2).symm
    · rfl

/-- `bitmap_scan` finds the first run. -/
theorem firstRun_scan (h : s.freeMap.scan 0 cnt false ≠ bitmapError) :
    FirstRun s.freeMap cnt (s.freeMap.scan 0 cnt false) :=
  ⟨(Bitmap.scan_spec h).2, fun _ hk hrun => Bitmap.scan_least h (Nat.zero_le _) hk hrun.2⟩

/-- Without a run it fails. -/
theorem noRun_of_scan (hbits : s.freeMap.bitCnt ≤ bitmapError)
    (h : s.freeMap.scan 0 cnt false = bitmapError)
    (sector : Nat) : ¬ FreeRun s.freeMap cnt sector := by
  intro hrun
  cases cnt with
  | zero =>
    -- an empty run starts at the first sector
    have hzero : s.freeMap.scan 0 0 false = 0 := by
      rfl
    rw [hzero] at h
    exact absurd h (by decide)
  | succ cnt =>
    exact Bitmap.scan_eq_error (Nat.lt_add_of_pos_right (Nat.succ_pos _) |>.trans_le' hbits) h
      (Nat.zero_le _) hrun.1 hrun.2

/-- What is stored of the map, and the rest of the file. -/
theorem Wrote.disk {n k : Nat} {map : Bitmap} (h : Wrote s t (dataAddr i 0) n map.byte) :
    t.disk (dataAddr i k) = if k < n then map.byte k else s.disk (dataAddr i k) := by
  have haddr : dataAddr i k = dataAddr i 0 + k := rfl
  rw [h]
  show patch s.disk (dataAddr i 0) n map.byte (dataAddr i k) = _
  rw [haddr]
  split
  · rw [patch_inside (Nat.le_add_right _ _) (by omega), Nat.add_sub_cancel_left]
  · exact patch_outside (Or.inr (by omega))

/-- There is one first run. -/
theorem FirstRun.eq {map : Bitmap} {a b : Nat} (ha : FirstRun map cnt a)
    (hb : FirstRun map cnt b) : a = b :=
  Nat.le_antisymm (not_lt.1 fun h => ha.2 b h hb.1) (not_lt.1 fun h => hb.2 a h ha.1)

/-- The bits of the file in terms of the bytes that a write stores. -/
theorem tornWrite_iff (h : s.freeMap.scan 0 cnt false ≠ bitmapError) :
    TornWrite s i cnt ↔ WriteFails s i ∧ ∃ k < storedCnt s i (byteCnt s.freeMap.bitCnt),
      s.disk (dataAddr i k) ≠ (flipped s cnt).byte k := by
  have hbit : ∀ k,
    (decide (s.freeMap.scan 0 cnt false ≤ k ∧ k < s.freeMap.scan 0 cnt false + cnt) ||
      s.freeMap.test k) = ((flipped s cnt).byte (k / 8)).toNat.testBit (k % 8) := by
    intro k
    rw [testBit_byte, test_flipped h]
    split_ifs with hk
    · rw [decide_eq_true hk, Bool.true_or]
    · rw [decide_eq_false hk, Bool.false_or]
  constructor
  · rintro ⟨hfails, hdeny, sector, hfirst, k, hk, hne⟩
    obtain rfl := hfirst.eq (firstRun_scan h)
    rw [storedBits_eq hdeny] at hk
    refine ⟨hfails, k / 8, by omega, fun he => hne ?_⟩
    rw [hbit, fileBit, he]
  · rintro ⟨hfails, k, hk, hne⟩
    have hdeny : i.denyWriteCnt = 0 := by
      by_contra hdeny
      rw [storedCnt, if_pos hdeny] at hk
      exact absurd hk (Nat.not_lt_zero _)
    obtain ⟨j, hj, hdiff⟩ := exists_testBit_ne hne
    have hdiv : (8 * k + j) / 8 = k := by omega
    have hmod : (8 * k + j) % 8 = j := by omega
    refine ⟨hfails, hdeny, _, firstRun_scan h, 8 * k + j, ?_, ?_⟩
    · rw [storedBits_eq hdeny]
      omega
    · rwa [hbit, fileBit, hdiv, hmod]

theorem storable_le (s : Fs) (n : Nat) : storable s n ≤ n := by
  rw [storable]
  split
  · exact Nat.sub_le _ _
  · exact le_rfl

/-- In a file in step with the map, a mark shows where it is stored. -/
theorem tornWrite_iff_of_inStep (hbits : s.freeMap.bitCnt ≤ bitmapError) (hstep : InStep s i) :
    TornWrite s i cnt ↔ MarksStored s i cnt := by
  have hsame : ∀ k < storedBits s i, fileBit s i k = s.freeMap.test k := fun k hk =>
    hstep k (hk.trans_le (Nat.mul_le_mul_left 8 (storable_le s _)))
  refine and_congr_right fun _ => and_congr_right fun _ => ?_
  constructor
  · rintro ⟨sector, hfirst, k, hk, hne⟩
    rw [hsame k hk] at hne
    by_cases hin : sector ≤ k ∧ k < sector + cnt
    · exact ⟨by omega, sector, hin.1.trans_lt hk, hfirst.1⟩
    · rw [decide_eq_false hin, Bool.false_or] at hne
      exact absurd rfl hne
  · rintro ⟨hcnt, sector, hlt, hrun⟩
    have he : s.freeMap.scan 0 cnt false ≠ bitmapError :=
      fun he => noRun_of_scan hbits he sector hrun
    obtain ⟨hfree, hleast⟩ := firstRun_scan he
    have hk := (not_lt.1 fun h => hleast sector h hrun).trans_lt hlt
    refine ⟨_, ⟨hfree, hleast⟩, _, hk, ?_⟩
    rw [hsame _ hk, hfree.2 _ le_rfl (by omega), decide_eq_true ⟨le_rfl, by omega⟩]
    exact Bool.false_ne_true

/-- `free_map_allocate` on any file. -/
theorem wp_freeMapAllocate_iff (hm : MapOpen s i) (hbits : s.freeMap.bitCnt ≤ bitmapError) :
    wp (freeMapAllocate cnt) s (AllOrNothing s i cnt) ↔ ¬ TornWrite s i cnt := by
  rw [freeMapAllocate, wp_bind, wp_get, Bitmap.scanAndFlip]
  rw [wp_bind, wp_modify, Nat.mod_eq_of_lt (Bitmap.scan_lt hbits)]
  by_cases he : s.freeMap.scan 0 cnt false = bitmapError
  · -- no run: nothing is changed
    rw [if_pos he, if_neg (not_not.2 he), wp_pure]
    have hno := noRun_of_scan hbits he
    refine ⟨?_, fun _ => ⟨rfl, fun _ _ _ => rfl, fun _ => hno⟩⟩
    rintro - ⟨-, -, sector, hfirst, -⟩
    exact hno sector hfirst.1
  rw [if_neg he, if_pos he, wp_bind, wp_get, tornWrite_iff he]
  have hfirst := firstRun_scan he
  cases hfile : s.freeMapFile with
  | none =>
    rw [wp_pure]
    refine ⟨fun _ h => h.1.1 hfile, fun _ => ⟨hfirst, test_flipped he, ?_⟩⟩
    intro hsome
    exact absurd hfile hsome
  | some file =>
    have hsome : s.freeMapFile ≠ none := by
      rw [hfile]
      exact Option.some_ne_none file
    have hbitCnt : (flipped s cnt).bitCnt = s.freeMap.bitCnt := Bitmap.setMultiple_bitCnt
    obtain ⟨r, t, hok, hr, ht⟩ := wp_bitmapWrite_failing hm hfile hbitCnt
    have hdisk := fun k => Wrote.disk (k := k) ht
    have hmap : t.freeMap = flipped s cnt := by rw [ht]; rfl
    rw [hfile] at hok
    rw [wp_bind]
    refine (wp_iff_of_wp ⟨r, t, hok, rfl, rfl⟩ _).trans ?_
    by_cases hfails : WriteFails s i
    · -- the marks are taken back, and what was stored is not
      obtain rfl : r = false := Bool.eq_false_iff.2 fun h => hr.1 h hfails
      rw [if_neg Bool.false_ne_true, wp_bind, wp_modify, wp_pure]
      have hback : t.freeMap.setMultiple (s.freeMap.scan 0 cnt false) cnt false = s.freeMap := by
        rw [hmap, unflipped he]
      constructor
      · rintro ⟨-, hkept, -⟩ ⟨-, k, hk, hne⟩
        have hsame := hkept hsome k (hk.trans_le (storedCnt_le s i _).2)
        refine hne (hsame.symm.trans ?_)
        show t.disk (dataAddr i k) = _
        rw [hdisk, if_pos hk]
      · intro hwhole
        refine ⟨hback, fun _ k _ => ?_, fun h => absurd hfails h⟩
        show t.disk (dataAddr i k) = s.disk (dataAddr i k)
        rw [hdisk]
        split
        · rename_i hk
          by_contra hne
          exact hwhole ⟨hfails, k, hk, fun e => hne e.symm⟩
        · rfl
    · obtain rfl : r = true := hr.2 hfails
      rw [if_pos rfl, wp_pure]
      refine ⟨fun _ h => hfails h.1, fun _ => ⟨hfirst, ?_, fun _ k hk => ?_⟩⟩
      · rw [hmap]
        exact test_flipped he
      · have hall : storedCnt s i (byteCnt s.freeMap.bitCnt) = byteCnt s.freeMap.bitCnt := by
          by_contra hne
          exact hfails (writeFails_iff.2 ⟨hsome, hne⟩)
        rw [hmap] at hk ⊢
        rw [hdisk, hall, if_pos (by rwa [hbitCnt] at hk)]

/-- **Allocation is all or nothing** when the file is in step with the map, exactly when no run of
free sectors begins in the part of the map that a failing write still stores, and in general exactly
when that part of the file has the marks already. -/
theorem allocate_allOrNothing_iff (hm : MapOpen s i) (hbits : s.freeMap.bitCnt ≤ bitmapError) :
    (InStep s i → (wp (freeMapAllocate cnt) s (AllOrNothing s i cnt) ↔ ¬ MarksStored s i cnt)) ∧
      (wp (freeMapAllocate cnt) s (AllOrNothing s i cnt) ↔ ¬ TornWrite s i cnt) := by
  refine ⟨fun hstep => ?_, wp_freeMapAllocate_iff hm hbits⟩
  rw [wp_freeMapAllocate_iff hm hbits, tornWrite_iff_of_inStep hbits hstep]

/-- A map of 4160 sectors, of which the first five are in use. -/
def largeMap : Bitmap := ⟨4160, 0x1f :: List.replicate 64 0, by decide⟩

/-- The inode of the free map file for it: one whole sector and eight bytes. -/
def mapInode : Inode := ⟨0, 0, 1, false, 0, 2, 520⟩

/-- A disk with this map, when the next allocation of memory fails. -/
def largeDisk : Fs where
  disk := patch (fun _ => 0) 1024 520 largeMap.byte
  capacity := 4160
  freeMap := largeMap
  freeMapFile := some 1
  openInodes := [mapInode]
  files := [⟨1, 0, 0, false⟩]
  nextPtr := 2
  failures := [true]

theorem mapOpen_largeDisk : MapOpen largeDisk mapInode where
  opened := by
    rintro file hfile
    obtain rfl := Option.some.inj hfile
    exact ⟨_, rfl, rfl⟩
  onDisk := by
    intro k hk
    simp only [sectorSize, mapInode] at hk
    simp only [Addressable, largeDisk, mapInode]
    omega

theorem inStep_largeDisk : InStep largeDisk mapInode := by
  intro k hk
  have hbyte : largeDisk.disk (dataAddr mapInode (k / 8 : Nat)) = largeMap.byte (k / 8) := by
    have hlt : k / 8 < 520 := Nat.div_lt_of_lt_mul (hk.trans_le (by decide))
    have hdata : dataAddr mapInode (k / 8 : Nat) = 1024 + k / 8 := rfl
    show patch (fun _ => 0) 1024 520 largeMap.byte (dataAddr mapInode (k / 8 : Nat)) = _
    rw [hdata, patch_inside (by omega) (by omega), Nat.add_sub_cancel_left]
  rw [fileBit, hbyte]
  exact testBit_byte largeMap k

theorem allocate_allOrNothing_largeDisk : InStep largeDisk mapInode ∧
    (wp (freeMapAllocate 1) largeDisk (AllOrNothing largeDisk mapInode 1) ↔
      ¬ MarksStored largeDisk mapInode 1) :=
  ⟨inStep_largeDisk, (allocate_allOrNothing_iff mapOpen_largeDisk (by decide)).1 inStep_largeDisk⟩

/-- The write of the last eight bytes fails: `free_map_allocate` returns false, and the file says
that sector 5 is in use. -/
theorem allocate_tornWrite : ∃ t, freeMapAllocate 1 largeDisk = .ok (none, t) ∧
    t.freeMap.test 5 = false ∧
    t.disk (dataAddr mapInode 0) = 0x3f ∧ largeDisk.disk (dataAddr mapInode 0) = 0x1f := by
  have hrun : (freeMapAllocate 1 largeDisk).toOption.any (fun r => decide (r.1 = none ∧
      r.2.freeMap.test 5 = false ∧ r.2.disk (dataAddr mapInode 0) = 0x3f ∧
      largeDisk.disk (dataAddr mapInode 0) = 0x1f)) = true := by
    decide +kernel
  obtain ⟨⟨r, t⟩, hok, hafter⟩ := exists_ok_of_any hrun
  obtain ⟨rfl, hbit, hbyte, hold⟩ := of_decide_eq_true hafter
  exact ⟨t, hok, hbit, hbyte, hold⟩

end Allocate

end Pintos.Filesys.AllocationFailure
