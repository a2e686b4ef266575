import Pintos.Filesys.InodeIo

/-!
# The file as a flat array

What `wp_inodeReadAt` and `wp_inodeWriteAt` say in terms of the bytes of the file, and the two
things that they leave out: that the way of a chunk, directly or through the bounce buffer, makes no
difference, and that the loops compute with `off_t` and `int` and nothing overflows.
-/

set_option autoImplicit false

namespace Pintos.Filesys.FlatIo

open Lib.KeyedList Lib.StateExcept Lib.ByteMemory LibKernel
open Filesys.State InodeIo

/-! ## The two ways of a chunk -/

section Ways

variable {s : Fs} {i : Inode}

theorem tmod_whole (k : Nat) : ((sectorSize * k : Nat) : Int).tmod sectorSize = 0 := by
  rw [Int.tmod_eq_emod_of_nonneg (Int.natCast_nonneg _)]
  simp only [sectorSize]
  omega

/-- A whole sector, read in either way. -/
theorem read_ways (hf : s.failures = []) (hd : DataOnDisk s i) {k : Nat}
    (hk : (sectorSize * (k + 1) : Nat) ≤ i.length) (bounce : Bool) :
    ∃ data, readDirect i (sectorSize * k : Nat) s = .ok (data, s) ∧
      readBounced i (sectorSize * k : Nat) bounce s = .ok (some (data, true), s) := by
  have hlt : ((sectorSize * k : Nat) : Int) < i.length := by
    simp only [sectorSize] at hk ⊢
    omega
  obtain ⟨hsector, haddr⟩ := byteToSector_eq hd (Int.natCast_nonneg _) hlt
  refine ⟨fun j => s.disk (sectorSize * (i.start + ((sectorSize * k : Nat) : Int).toNat / 512) + j),
    ?_, ?_⟩
  · obtain ⟨data, t, hrun, rfl, rfl⟩ : wp (readDirect i (sectorSize * k : Nat)) s
        fun data t => data = _ ∧ t = s := by
      rw [readDirect, hsector, wp_diskRead]
      exact ⟨haddr, rfl, rfl⟩
    exact hrun
  · obtain ⟨r, t, hrun, rfl, rfl⟩ : wp (readBounced i (sectorSize * k : Nat) bounce) s
        fun r t => r = some (fun j => s.disk (sectorSize * (i.start +
          ((sectorSize * k : Nat) : Int).toNat / 512) + j), true) ∧ t = s := by
      rw [readBounced, wp_bind, wp_bounceBuffer (Or.inr hf), if_pos rfl, wp_bind,
        hsector, wp_diskRead, wp_pure, tmod_whole]
      refine ⟨haddr, ?_, rfl⟩
      simp only [Int.toNat_zero, zero_add]
    exact hrun

/-- A whole sector, written in either way. The bounce buffer starts with zeros, all of which are
overwritten. -/
theorem write_ways (hf : s.failures = []) (hd : DataOnDisk s i) {k : Nat}
    (hk : (sectorSize * (k + 1) : Nat) ≤ i.length) (bounce : Bool) (data : Nat → UInt8) :
    ∃ t, writeDirect i (sectorSize * k : Nat) data s = .ok ((), t) ∧
      writeBounced i (sectorSize * k : Nat) sectorSize bounce data s = .ok (some true, t) := by
  have hlt : ((sectorSize * k : Nat) : Int) < i.length := by
    simp only [sectorSize] at hk ⊢
    omega
  obtain ⟨hsector, haddr⟩ := byteToSector_eq hd (Int.natCast_nonneg _) hlt
  have hzeros : ¬ (0 < (0 : Int) ∨ (sectorSize : Int) < sectorSize - 0) := by omega
  have hsame : ∀ a, patch s.disk a sectorSize (patch (fun _ => 0) 0 sectorSize data) =
      patch s.disk a sectorSize data := by
    intro a
    apply patch_congr
    intro j hj
    rw [patch_inside (Nat.zero_le j) (by omega), Nat.sub_zero]
  refine ⟨s.patchDisk
    (sectorSize * (i.start + ((sectorSize * k : Nat) : Int).toNat / 512)) sectorSize data, ?_, ?_⟩
  · obtain ⟨⟨⟩, t, hrun, rfl⟩ :
        wp (writeDirect i (sectorSize * k : Nat) data) s fun _ t => t = _ := by
      rw [writeDirect, hsector, wp_diskWrite]
      exact ⟨haddr, rfl⟩
    exact hrun
  · obtain ⟨r, t, hrun, rfl, rfl⟩ :
      wp (writeBounced i (sectorSize * k : Nat) sectorSize bounce data) s
        fun r t => r = some true ∧ t = s.patchDisk (sectorSize * (i.start +
          ((sectorSize * k : Nat) : Int).toNat / 512)) sectorSize data := by
      rw [writeBounced, wp_bind, wp_bounceBuffer (Or.inr hf), if_pos rfl, wp_bind,
        hsector, tmod_whole, bounceContent, if_neg hzeros, wp_pure, wp_bind, wp_diskWrite, wp_pure]
      refine ⟨haddr, rfl, ?_⟩
      simp only [Int.toNat_natCast, Int.toNat_zero, Fs.patchDisk, hsame]
    exact hrun

end Ways

/-! ## The computations of the loops -/

/-- The value of an `int` or an `off_t`. -/
def IsInt (v : Int) : Prop := -2 ^ 31 ≤ v ∧ v < 2 ^ 31

/-- The results of the signed computations in the rounds of a transfer, which are the same in both
loops: the quotient in `byte_to_sector`, `sector_ofs`, `inode_left`, `sector_left`, `chunk_size`,
and the new values of `size`, `offset` and the bytes transferred. -/
def transferInts (i : Inode) : Nat → Int → Int → Int → List Int
  | 0, _, _, _ => []
  | fuel + 1, size, offset, done =>
    if size ≤ 0 then []
    else
      let chunk := chunkSize i size offset
      [offset.tdiv sectorSize, offset.tmod sectorSize, i.length - offset,
        sectorSize - offset.tmod sectorSize, chunk] ++
      if chunk ≤ 0 then []
      else
        [size - chunk, offset + chunk, done + chunk] ++
          transferInts i fuel (size - chunk) (offset + chunk) (done + chunk)

/-- No computation overflows: the offset never passes the length, and what is done and what is left
of the request add up to the request. -/
theorem transferInts_isInt {i : Inode} (hlen : 0 ≤ i.length ∧ i.length < 2 ^ 31) {fuel : Nat}
    {size offset done : Int} (hsize : IsInt size) (h0 : 0 ≤ offset) (hoffset : offset < 2 ^ 31)
    (hdone : 0 ≤ done) (hsum : 0 < size → done + size < 2 ^ 31) :
    ∀ v ∈ transferInts i fuel size offset done, IsInt v := by
  induction fuel generalizing size offset done with
  | zero =>
    intro v hv
    cases hv
  | succ fuel ih =>
    intro v hv
    rw [transferInts] at hv
    by_cases hend : size ≤ 0
    · rw [if_pos hend] at hv
      cases hv
    · rw [if_neg hend] at hv
      have hpos : 0 < size := not_le.1 hend
      obtain ⟨-, hle, hleft, -⟩ := chunkSize_facts (i := i) h0 hpos
      have hss : ((sectorSize : Nat) : Int) = 512 := rfl
      have hdiv : offset.tdiv sectorSize = offset / 512 := by
        rw [Int.tdiv_eq_ediv_of_nonneg h0, hss]
      have hmod : offset.tmod sectorSize = offset % 512 := by
        rw [Int.tmod_eq_emod_of_nonneg h0, hss]
      -- the chunk is one of the three values it is the minimum of
      have hchunk : IsInt (chunkSize i size offset) := by
        simp only [chunkSize, hmod]
        simp only [IsInt, hss] at hsize ⊢
        split_ifs <;> omega
      simp only [hdiv, hmod] at hv
      generalize chunkSize i size offset = chunk at hv hle hleft hchunk
      simp only [IsInt] at hsize hchunk
      rcases List.mem_append.1 hv with hv | hv
      · simp only [List.mem_cons, List.not_mem_nil, or_false] at hv
        rcases hv with rfl | rfl | rfl | rfl | rfl <;> simp only [IsInt] <;> omega
      · by_cases hstop : chunk ≤ 0
        · rw [if_pos hstop] at hv
          cases hv
        · rw [if_neg hstop] at hv
          rcases List.mem_append.1 hv with hv | hv
          · simp only [List.mem_cons, List.not_mem_nil, or_false] at hv
            rcases hv with rfl | rfl | rfl <;> simp only [IsInt] <;> omega
          · exact ih ⟨by omega, by omega⟩ (by omega) (by omega) (by omega) (fun _ => by omega) v hv

section Counts

variable {s : Fs} {i : Inode} {fuel : Nat} {size offset : Int} {done : Nat} {bounce : Bool}
  {buffer : Nat → UInt8}

theorem mem_transferInts_succ {n : Nat} (hsize : ¬ size ≤ 0)
    (hchunk : ¬ chunkSize i size offset ≤ 0)
    (h : n = done + (chunkSize i size offset).toNat ∨ (n : Int) ∈ transferInts i fuel
      (size - chunkSize i size offset) (offset + chunkSize i size offset)
      (done + (chunkSize i size offset).toNat : Nat)) :
    (n : Int) ∈ transferInts i (fuel + 1) size offset done := by
  have hcast : ((done + (chunkSize i size offset).toNat : Nat) : Int) =
      done + chunkSize i size offset := by omega
  rw [← Nat.cast_inj (R := Int), hcast] at h
  simp only [transferInts, if_neg hsize, if_neg hchunk, List.mem_append, List.mem_cons]
  tauto

/-- The count that the loop of `inode_read_at` returns is one of these numbers. -/
theorem wlp_readLoop_mem : wlp (readLoop i fuel size offset done bounce buffer) s fun r _ =>
    r.1 = done ∨ (r.1 : Int) ∈ transferInts i fuel size offset done := by
  induction fuel generalizing size offset done bounce buffer s with
  | zero => exact (wlp_pure _ _ _).2 (.inl rfl)
  | succ fuel ih =>
    rw [readLoop]
    by_cases hsize : size ≤ 0
    · rw [if_pos hsize]
      exact (wlp_pure _ _ _).2 (.inl rfl)
    rw [if_neg hsize]
    by_cases hchunk : chunkSize i size offset ≤ 0
    · rw [if_pos hchunk]
      exact (wlp_pure _ _ _).2 (.inl rfl)
    rw [if_neg hchunk, wlp_bind]
    rintro (_ | ⟨data, b⟩) t -
    · exact (wlp_pure _ _ _).2 (.inl rfl)
    · exact wlp_mono ih fun r _ hr => .inr (mem_transferInts_succ hsize hchunk hr)

/-- The same for the loop of `inode_write_at`. -/
theorem wlp_writeLoop_mem : wlp (writeLoop i buffer fuel size offset done bounce) s fun n _ =>
    n = done ∨ (n : Int) ∈ transferInts i fuel size offset done := by
  induction fuel generalizing size offset done bounce s with
  | zero => exact (wlp_pure _ _ _).2 (.inl rfl)
  | succ fuel ih =>
    rw [writeLoop]
    by_cases hsize : size ≤ 0
    · rw [if_pos hsize]
      exact (wlp_pure _ _ _).2 (.inl rfl)
    rw [if_neg hsize]
    by_cases hchunk : chunkSize i size offset ≤ 0
    · rw [if_pos hchunk]
      exact (wlp_pure _ _ _).2 (.inl rfl)
    rw [if_neg hchunk, wlp_bind]
    rintro (_ | b) t -
    · exact (wlp_pure _ _ _).2 (.inl rfl)
    · exact wlp_mono ih fun n _ hn => .inr (mem_transferInts_succ hsize hchunk hn)

end Counts

/-! ## Reading and writing the flat array -/

/-- File I/O is flat-array I/O. For an open inode whose data lies on the disk, and allocations that
succeed: `inode_read_at` returns the number of bytes between the offset and the end of the request
or of the file, these bytes in the buffer, and changes nothing; `inode_write_at`, unless writes are
denied, replaces exactly these bytes of the file, and no other byte of the disk. A whole sector
could as well go through the bounce buffer, and no signed computation overflows. -/
theorem flat_io (s : Fs) (i : Inode) (ptr : Nat) (buffer : Nat → UInt8) (size offset : Int)
    (hf : s.failures = []) (hi : lookup Inode.ptr s.openInodes ptr = some i) (hd : DataOnDisk s i)
    (hlen : 0 ≤ i.length ∧ i.length < 2 ^ 31) (hsize : IsInt size)
    (hoffset : 0 ≤ offset ∧ offset < 2 ^ 31) :
    let n := (min size (max 0 (i.length - offset))).toNat
    (∃ out, inodeReadAt ptr buffer size offset s = .ok ((n, out), s) ∧
      (∀ j < n, out j = s.disk (dataAddr i (offset + j))) ∧ ∀ j, n ≤ j → out j = buffer j) ∧
    (i.denyWriteCnt = 0 → ∃ disk, inodeWriteAt ptr buffer size offset s = .ok (n, { s with disk }) ∧
      (∀ j < n, disk (dataAddr i (offset + j)) = buffer j) ∧
      ∀ a, (∀ j < n, a ≠ dataAddr i (offset + j)) → disk a = s.disk a) ∧
    (∀ k bounce data, (sectorSize * (k + 1) : Nat) ≤ i.length →
      (∃ block, readDirect i (sectorSize * k : Nat) s = .ok (block, s) ∧
        readBounced i (sectorSize * k : Nat) bounce s = .ok (some (block, true), s)) ∧
      ∃ t, writeDirect i (sectorSize * k : Nat) data s = .ok ((), t) ∧
        writeBounced i (sectorSize * k : Nat) sectorSize bounce data s = .ok (some true, t)) ∧
    ∀ v ∈ transferInts i size.toNat size offset 0, IsInt v := by
  intro n
  have hn : transferCnt i size offset = n := by
    simp only [transferCnt, n]
    omega
  have haddr : ∀ j : Nat, dataAddr i (offset + j) = dataAddr i offset + j := by
    intro j
    rw [dataAddr_chunk hoffset.1 (Int.natCast_nonneg j), Int.toNat_natCast]
  refine ⟨?_, ?_, ?_, ?_⟩
  · obtain ⟨r, t, hrun, rfl, rfl⟩ : wp (inodeReadAt ptr buffer size offset) s fun r t =>
        r = (n, patch buffer 0 n fun j => s.disk (dataAddr i offset + j)) ∧ t = s := by
      rw [wp_inodeReadAt hf hi hd hoffset.1, hn]
      exact ⟨rfl, rfl⟩
    refine ⟨_, hrun, ?_, ?_⟩
    · intro j hj
      rw [patch_inside (Nat.zero_le j) (by omega), Nat.sub_zero, haddr]
    · intro j hj
      exact patch_outside (by omega)
  · intro hdeny
    obtain ⟨r, t, hrun, rfl, rfl⟩ : wp (inodeWriteAt ptr buffer size offset) s fun r t =>
        r = n ∧ t = s.patchDisk (dataAddr i offset) n buffer := by
      rw [wp_inodeWriteAt hf hi hd hoffset.1 hdeny, hn]
      exact ⟨rfl, rfl⟩
    refine ⟨_, hrun, ?_, ?_⟩
    · intro j hj
      rw [haddr, patch_inside (by omega) (by omega), Nat.add_sub_cancel_left]
    · intro a ha
      apply patch_outside
      by_contra hin
      exact ha (a - dataAddr i offset) (by omega) (by rw [haddr]; omega)
  · intro k bounce data hk
    exact ⟨read_ways hf hd hk bounce, write_ways hf hd hk bounce data⟩
  · apply transferInts_isInt hlen hsize hoffset.1 hoffset.2 (le_refl 0)
    intro _
    rw [zero_add]
    exact hsize.2

/-- An inode of 1000 bytes in the sectors 3 and 4 of a disk. -/
def oneInode : Inode := ⟨7, 2, 1, false, 0, 3, 1000⟩

def oneInodeFs : Fs where
  disk := fun a => UInt8.ofNat a
  capacity := 8
  freeMap := Bitmap.create 8 fun _ => 0
  freeMapFile := none
  openInodes := [oneInode]
  files := []
  nextPtr := 8
  failures := []

/-- A request across the end of a sector and the end of the file. -/
theorem flat_io_twoSectors :
    ∃ out, inodeReadAt 7 (fun _ => 0) 600 500 oneInodeFs = .ok ((500, out), oneInodeFs) ∧
      (∀ j < 500, out j = oneInodeFs.disk (dataAddr oneInode (500 + j))) ∧
      ∀ j, 500 ≤ j → out j = 0 := by
  have hd : DataOnDisk oneInodeFs oneInode := by
    intro k hk
    simp only [sectorSize, oneInode] at hk
    simp only [Addressable, oneInodeFs, oneInode]
    omega
  exact (flat_io oneInodeFs oneInode 7 (fun _ => 0) 600 500 rfl rfl hd (by decide)
    (by constructor <;> norm_num) (by constructor <;> norm_num)).1

end Pintos.Filesys.FlatIo
