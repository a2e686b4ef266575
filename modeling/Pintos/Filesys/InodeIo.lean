import Pintos.Filesys.State

/-!
# Reading and writing an inode

`inode_read_at` and `inode_write_at` work sector by sector, whole sectors directly and partial ones
through a bounce buffer. The data of an inode is one run of sectors, and the disk one array of
bytes, so both loops are a single copy between the buffer and the bytes of the disk from `512 *
start + offset` on (`wp_inodeReadAt`, `wp_inodeWriteAt`), cut at the end of the inode.
-/

set_option autoImplicit false

namespace Pintos.Filesys.InodeIo

open Lib.KeyedList Lib.StateExcept Lib.ByteMemory Filesys.State

/-- `byte_to_sector`. -/
def byteToSector (inode : Inode) (pos : Int) : Nat :=
  if pos < inode.length then ((inode.start + pos.tdiv sectorSize) % 2 ^ 32).toNat else 2 ^ 32 - 1

/-- The size of the next chunk: what is left of the request, of the inode and of the sector. -/
def chunkSize (inode : Inode) (size offset : Int) : Int :=
  let sectorOfs := offset.tmod sectorSize
  let inodeLeft := inode.length - offset
  let sectorLeft := sectorSize - sectorOfs
  let minLeft := if inodeLeft < sectorLeft then inodeLeft else sectorLeft
  if size < minLeft then size else minLeft

/-- The bounce buffer is allocated when it is first needed: whether there is one after that. -/
def bounceBuffer (bounce : Bool) : FsM Bool :=
  if bounce then pure true else malloc

/-- A chunk of `inode_read_at` that is read into the caller's buffer. -/
def readDirect (inode : Inode) (offset : Int) : FsM (Nat → UInt8) :=
  diskRead (byteToSector inode offset)

/-- A chunk of `inode_read_at` that is read through the bounce buffer. -/
def readBounced (inode : Inode) (offset : Int) (bounce : Bool) :
    FsM (Option ((Nat → UInt8) × Bool)) := do
  let bounce ← bounceBuffer bounce
  if bounce then
    let block ← diskRead (byteToSector inode offset)
    return some (fun i => block ((offset.tmod sectorSize).toNat + i), true)
  else
    return none

/-- One chunk of `inode_read_at`: the bytes read, and whether there is a bounce buffer now; `none`
when no bounce buffer can be allocated. -/
def readChunk (inode : Inode) (offset chunk : Int) (bounce : Bool) :
    FsM (Option ((Nat → UInt8) × Bool)) := do
  if offset.tmod sectorSize = 0 ∧ chunk = sectorSize then
    let block ← readDirect inode offset
    return some (block, bounce)
  else
    readBounced inode offset bounce

/-- The loop of `inode_read_at`. Each round that goes on lowers `size`, which bounds the rounds. -/
def readLoop (inode : Inode) : Nat → Int → Int → Nat → Bool → (Nat → UInt8) →
    FsM (Nat × (Nat → UInt8))
  | 0, _, _, bytesRead, _, buffer => return (bytesRead, buffer)
  | fuel + 1, size, offset, bytesRead, bounce, buffer => do
    if size ≤ 0 then
      return (bytesRead, buffer)
    else
      let chunk := chunkSize inode size offset
      if chunk ≤ 0 then
        return (bytesRead, buffer)
      else
        match ← readChunk inode offset chunk bounce with
        | none => return (bytesRead, buffer)
        | some (data, bounce) =>
          readLoop inode fuel (size - chunk) (offset + chunk) (bytesRead + chunk.toNat) bounce
            (patch buffer bytesRead chunk.toNat data)

/-- `inode_read_at`: the number of bytes read and the buffer. -/
def inodeReadAt (inode : Nat) (buffer : Nat → UInt8) (size offset : Int) :
    FsM (Nat × (Nat → UInt8)) := do
  let i ← derefInode inode
  readLoop i size.toNat size offset 0 false buffer

/-- The bounce buffer before a chunk is copied into it: the sector, or zeros when the chunk covers
it. -/
def bounceContent (sectorIdx : Nat) (sectorOfs chunk : Int) : FsM (Nat → UInt8) :=
  if 0 < sectorOfs ∨ chunk < sectorSize - sectorOfs then diskRead sectorIdx else pure fun _ => 0

/-- A chunk of `inode_write_at` that is written from the caller's buffer. -/
def writeDirect (inode : Inode) (offset : Int) (data : Nat → UInt8) : FsM Unit :=
  diskWrite (byteToSector inode offset) data

/-- A chunk of `inode_write_at` that is written through the bounce buffer. -/
def writeBounced (inode : Inode) (offset chunk : Int) (bounce : Bool) (data : Nat → UInt8) :
    FsM (Option Bool) := do
  let bounce ← bounceBuffer bounce
  if bounce then
    let block ← bounceContent (byteToSector inode offset) (offset.tmod sectorSize) chunk
    diskWrite (byteToSector inode offset)
      (patch block (offset.tmod sectorSize).toNat chunk.toNat data)
    return some true
  else
    return none

/-- One chunk of `inode_write_at`, from the bytes `data`: whether there is a bounce buffer now;
`none` when none can be allocated. -/
def writeChunk (inode : Inode) (offset chunk : Int) (bounce : Bool) (data : Nat → UInt8) :
    FsM (Option Bool) := do
  if offset.tmod sectorSize = 0 ∧ chunk = sectorSize then
    writeDirect inode offset data
    return some bounce
  else
    writeBounced inode offset chunk bounce data

/-- The loop of `inode_write_at`. -/
def writeLoop (inode : Inode) (buffer : Nat → UInt8) : Nat → Int → Int → Nat → Bool → FsM Nat
  | 0, _, _, bytesWritten, _ => return bytesWritten
  | fuel + 1, size, offset, bytesWritten, bounce => do
    if size ≤ 0 then
      return bytesWritten
    else
      let chunk := chunkSize inode size offset
      if chunk ≤ 0 then
        return bytesWritten
      else
        match ← writeChunk inode offset chunk bounce fun i => buffer (bytesWritten + i) with
        | none => return bytesWritten
        | some bounce =>
          writeLoop inode buffer fuel (size - chunk) (offset + chunk) (bytesWritten + chunk.toNat)
            bounce

/-- `inode_write_at`: the number of bytes written. -/
def inodeWriteAt (inode : Nat) (buffer : Nat → UInt8) (size offset : Int) : FsM Nat := do
  let i ← derefInode inode
  if i.denyWriteCnt ≠ 0 then
    return 0
  else
    writeLoop i buffer size.toNat size offset 0 false

/-! ## The loops as one copy -/

section Flat

variable {s : Fs} {i : Inode} {size offset chunk : Int} {bounce : Bool} {buffer : Nat → UInt8}
  {ptr : Nat}

/-- Every sector with data of the inode can be accessed. -/
def DataOnDisk (s : Fs) (i : Inode) : Prop :=
  ∀ k : Nat, (sectorSize * k : Int) < i.length → Addressable s (i.start + k)

/-- The number of bytes that a transfer of `size` bytes at `offset` moves. -/
def transferCnt (i : Inode) (size offset : Int) : Nat := (min size (i.length - offset)).toNat

/-- The address on the disk of the byte at `offset`. -/
def dataAddr (i : Inode) (offset : Int) : Nat := sectorSize * i.start + offset.toNat

theorem transferCnt_eq_zero (h : size ≤ 0 ∨ i.length ≤ offset) :
    transferCnt i size offset = 0 := by
  simp only [transferCnt]
  omega

/-- The rest of a transfer after its first chunk. -/
theorem transferCnt_chunk (h0 : 0 ≤ chunk) (hle : chunk ≤ size)
    (hleft : chunk ≤ i.length - offset) :
    transferCnt i size offset = chunk.toNat + transferCnt i (size - chunk) (offset + chunk) := by
  simp only [transferCnt]
  omega

theorem dataAddr_chunk (h0 : 0 ≤ offset) (hc : 0 ≤ chunk) :
    dataAddr i (offset + chunk) = dataAddr i offset + chunk.toNat := by
  simp only [dataAddr]
  omega

theorem byteToSector_eq (hd : DataOnDisk s i) (h0 : 0 ≤ offset) (hlt : offset < i.length) :
    byteToSector i offset = i.start + offset.toNat / 512 ∧
      Addressable s (i.start + offset.toNat / 512) := by
  have haddr : Addressable s (i.start + offset.toNat / 512) := by
    apply hd
    simp only [sectorSize]
    omega
  have hsmall := haddr.2
  refine ⟨?_, haddr⟩
  rw [byteToSector, if_pos hlt, Int.tdiv_eq_ediv_of_nonneg h0]
  simp only [sectorSize]
  omega

/-- A chunk is not empty unless the request or the inode is at its end, and stays within the
request, the inode and the sector. -/
theorem chunkSize_facts (h0 : 0 ≤ offset) (hsize : 0 < size) :
    (0 < chunkSize i size offset ↔ offset < i.length) ∧ chunkSize i size offset ≤ size ∧
      chunkSize i size offset ≤ i.length - offset ∧
      chunkSize i size offset ≤ 512 - (offset.toNat % 512 : Nat) := by
  have hmod : offset.tmod sectorSize = (offset.toNat % 512 : Nat) := by
    rw [Int.tmod_eq_emod_of_nonneg h0]
    simp only [sectorSize]
    omega
  have hss : ((sectorSize : Nat) : Int) = 512 := rfl
  simp only [chunkSize, hmod]
  split_ifs <;> omega

/-- After the test of the bounce buffer there is one, if there was one or it can be allocated. -/
theorem wp_bounceBuffer (hf : bounce = true ∨ s.failures = []) (Q : Bool → Fs → Prop) :
    wp (bounceBuffer bounce) s Q ↔ Q true s := by
  cases bounce with
  | true => exact wp_pure true s Q
  | false => exact wp_malloc (hf.resolve_left Bool.false_ne_true) Q

/-- A chunk is read from the address of its first byte on, in either way. -/
theorem wp_readChunk {Q : Option ((Nat → UInt8) × Bool) → Fs → Prop}
    (hf : bounce = true ∨ s.failures = []) (hd : DataOnDisk s i) (h0 : 0 ≤ offset)
    (hlt : offset < i.length) (hQ : ∀ b, (b = true ∨ s.failures = []) →
      Q (some (fun j => s.disk (dataAddr i offset + j), b)) s) :
    wp (readChunk i offset chunk bounce) s Q := by
  obtain ⟨hsector, haddr⟩ := byteToSector_eq hd h0 hlt
  have hmod : (offset.tmod sectorSize).toNat = offset.toNat % 512 := by
    rw [Int.tmod_eq_emod_of_nonneg h0]
    simp only [sectorSize]
    omega
  -- the address of a byte of the sector, counted from the byte at `offset`
  have hsplit : ∀ j, sectorSize * (i.start + offset.toNat / 512) + (offset.toNat % 512 + j) =
      dataAddr i offset + j := by
    simp only [dataAddr, sectorSize]
    omega
  simp only [readChunk, readDirect, readBounced, hsector, hmod]
  rw [wp_ite]
  constructor
  · rintro ⟨hdirect, -⟩
    have hofs : offset.toNat % 512 = 0 := by rw [← hmod, hdirect]; rfl
    rw [wp_bind, wp_diskRead, wp_pure]
    refine ⟨haddr, ?_⟩
    simp only [hofs, zero_add] at hsplit
    simpa only [hsplit] using hQ bounce hf
  · intro _
    rw [wp_bind, wp_bounceBuffer hf, if_pos rfl, wp_bind, wp_diskRead, wp_pure]
    simp only [hsplit]
    exact ⟨haddr, hQ true (.inl rfl)⟩

/-- The loop of `inode_read_at` copies from the disk until the request or the inode ends. -/
theorem wp_readLoop {fuel : Nat} {done : Nat} {Q : Nat × (Nat → UInt8) → Fs → Prop}
    (hf : bounce = true ∨ s.failures = []) (hd : DataOnDisk s i) (h0 : 0 ≤ offset)
    (hfuel : size.toNat ≤ fuel)
    (hQ : Q (done + transferCnt i size offset, patch buffer done (transferCnt i size offset)
      fun j => s.disk (dataAddr i offset + j)) s) :
    wp (readLoop i fuel size offset done bounce buffer) s Q := by
  induction fuel generalizing size offset done bounce buffer with
  | zero =>
    rw [transferCnt_eq_zero (by omega), patch_zero] at hQ
    simpa [readLoop] using hQ
  | succ fuel ih =>
    rw [readLoop, wp_ite]
    constructor
    · intro hsize
      rw [transferCnt_eq_zero (.inl hsize), patch_zero] at hQ
      simpa using hQ
    · intro hsize
      obtain ⟨hpos, hle, hleft, -⟩ := chunkSize_facts (i := i) h0 (not_le.1 hsize)
      generalize chunkSize i size offset = chunk at hpos hle hleft ⊢
      rw [wp_ite]
      constructor
      · intro hchunk
        have hend : i.length ≤ offset := not_lt.1 fun hlt => not_lt.2 hchunk (hpos.2 hlt)
        rw [transferCnt_eq_zero (.inr hend), patch_zero] at hQ
        simpa using hQ
      · intro hchunk
        have hc0 : 0 < chunk := not_le.1 hchunk
        rw [wp_bind]
        apply wp_readChunk hf hd h0 (hpos.1 hc0)
        intro b hb
        -- the rest of the copy starts one chunk further, in the buffer and on the disk
        rw [transferCnt_chunk hc0.le hle hleft, ← patch_append, ← add_assoc] at hQ
        apply ih hb (by omega) (by omega)
        simpa only [dataAddr_chunk h0 hc0.le, add_assoc] using hQ

/-- **Reading an inode.** `inode_read_at` copies the bytes from `offset` on, up to the end of the
inode, and changes nothing. -/
theorem wp_inodeReadAt (hf : s.failures = []) (hi : lookup Inode.ptr s.openInodes ptr = some i)
    (hd : DataOnDisk s i) (h0 : 0 ≤ offset) (Q : Nat × (Nat → UInt8) → Fs → Prop) :
    wp (inodeReadAt ptr buffer size offset) s Q ↔
      Q (transferCnt i size offset, patch buffer 0 (transferCnt i size offset)
        fun j => s.disk (dataAddr i offset + j)) s := by
  apply wp_iff_of_wp
  rw [inodeReadAt, wp_bind, wp_derefInode hi]
  apply wp_readLoop (.inr hf) hd h0 (le_refl _)
  exact ⟨by rw [zero_add], rfl⟩

/-! ## Writing -/

theorem DataOnDisk.congr {t : Fs} (hcap : t.capacity = s.capacity) (h : DataOnDisk s i) :
    DataOnDisk t i := by
  intro k hk
  rw [Addressable, hcap]
  exact h k hk

/-- A chunk is written from the address of its first byte on, in either way; the rest of the sector
is written back unchanged. -/
theorem wp_writeChunk {data : Nat → UInt8} {Q : Option Bool → Fs → Prop}
    (hf : bounce = true ∨ s.failures = []) (hd : DataOnDisk s i) (h0 : 0 ≤ offset)
    (hlt : offset < i.length) (hc0 : 0 < chunk) (hc : chunk ≤ 512 - (offset.toNat % 512 : Nat))
    (hQ : ∀ b, (b = true ∨ s.failures = []) →
      Q (some b) (s.patchDisk (dataAddr i offset) chunk.toNat data)) :
    wp (writeChunk i offset chunk bounce data) s Q := by
  obtain ⟨hsector, haddr⟩ := byteToSector_eq hd h0 hlt
  have hmod : offset.tmod sectorSize = (offset.toNat % 512 : Nat) := by
    rw [Int.tmod_eq_emod_of_nonneg h0]
    simp only [sectorSize]
    omega
  have hss : sectorSize = 512 := rfl
  have hsplit : sectorSize * (i.start + offset.toNat / 512) + offset.toNat % 512 =
      dataAddr i offset := by
    simp only [dataAddr, sectorSize]
    omega
  simp only [writeChunk, writeDirect, writeBounced, hsector, hmod]
  rw [wp_ite]
  constructor
  · rintro ⟨hdirect, hwhole⟩
    have hofs : offset.toNat % 512 = 0 := by omega
    have hcnt : chunk.toNat = sectorSize := by omega
    rw [hofs, add_zero] at hsplit
    rw [wp_bind, wp_diskWrite, wp_pure, hsplit, ← hcnt]
    exact ⟨haddr, hQ bounce hf⟩
  · intro hpart
    -- a partial chunk always starts from the old content of the sector
    have hold : 0 < ((offset.toNat % 512 : Nat) : Int) ∨
        chunk < sectorSize - ((offset.toNat % 512 : Nat) : Int) := by
      omega
    have hpatch := patch_part s.disk (a := sectorSize * (i.start + offset.toNat / 512))
      (k := sectorSize) (o := offset.toNat % 512) (n := chunk.toNat) data (by rw [hss]; omega)
    rw [hsplit] at hpatch
    -- the state after the chunk is written through the bounce buffer
    have hstate : s.patchDisk (sectorSize * (i.start + offset.toNat / 512)) sectorSize
        (patch (fun j => s.disk (sectorSize * (i.start + offset.toNat / 512) + j))
          (offset.toNat % 512) chunk.toNat data) =
        s.patchDisk (dataAddr i offset) chunk.toNat data := by
      rw [Fs.patchDisk, hpatch, Fs.patchDisk]
    rw [wp_bind, wp_bounceBuffer hf, if_pos rfl, bounceContent, if_pos hold, wp_bind, wp_diskRead,
      wp_bind, wp_diskWrite, wp_pure, Int.toNat_natCast, hstate]
    exact ⟨haddr, haddr, hQ true (.inl rfl)⟩

/-- The loop of `inode_write_at` copies to the disk until the request or the inode ends. -/
theorem wp_writeLoop {fuel : Nat} {done : Nat} {Q : Nat → Fs → Prop}
    (hf : bounce = true ∨ s.failures = []) (hd : DataOnDisk s i) (h0 : 0 ≤ offset)
    (hfuel : size.toNat ≤ fuel)
    (hQ : Q (done + transferCnt i size offset) (s.patchDisk (dataAddr i offset)
      (transferCnt i size offset) fun j => buffer (done + j))) :
    wp (writeLoop i buffer fuel size offset done bounce) s Q := by
  induction fuel generalizing s size offset done bounce with
  | zero =>
    rw [transferCnt_eq_zero (by omega), Fs.patchDisk_zero] at hQ
    simpa [writeLoop] using hQ
  | succ fuel ih =>
    rw [writeLoop, wp_ite]
    constructor
    · intro hsize
      rw [transferCnt_eq_zero (.inl hsize), Fs.patchDisk_zero] at hQ
      simpa using hQ
    · intro hsize
      obtain ⟨hpos, hle, hleft, hsector⟩ := chunkSize_facts (i := i) h0 (not_le.1 hsize)
      generalize chunkSize i size offset = chunk at hpos hle hleft hsector ⊢
      rw [wp_ite]
      constructor
      · intro hchunk
        have hend : i.length ≤ offset := not_lt.1 fun hlt => not_lt.2 hchunk (hpos.2 hlt)
        rw [transferCnt_eq_zero (.inr hend), Fs.patchDisk_zero] at hQ
        simpa using hQ
      · intro hchunk
        have hc0 : 0 < chunk := not_le.1 hchunk
        rw [wp_bind]
        apply wp_writeChunk hf hd h0 (hpos.1 hc0) hc0 hsector
        intro b hb
        rw [transferCnt_chunk hc0.le hle hleft, ← Fs.patchDisk_append, ← add_assoc] at hQ
        apply ih (s := s.patchDisk _ _ _) hb (hd.congr rfl) (by omega) (by omega)
        simpa only [dataAddr_chunk h0 hc0.le, add_assoc] using hQ

/-- **Writing an inode.** `inode_write_at` replaces the bytes from `offset` on, up to the end of the
inode, and changes nothing else; while writes are denied it does nothing. -/
theorem wp_inodeWriteAt (hf : s.failures = []) (hi : lookup Inode.ptr s.openInodes ptr = some i)
    (hd : DataOnDisk s i) (h0 : 0 ≤ offset) (hdeny : i.denyWriteCnt = 0) (Q : Nat → Fs → Prop) :
    wp (inodeWriteAt ptr buffer size offset) s Q ↔
      Q (transferCnt i size offset)
        (s.patchDisk (dataAddr i offset) (transferCnt i size offset) buffer) := by
  apply wp_iff_of_wp
  rw [inodeWriteAt, wp_bind, wp_derefInode hi, if_neg (not_not.2 hdeny)]
  apply wp_writeLoop (.inr hf) hd h0 (le_refl _)
  refine ⟨by rw [zero_add], ?_⟩
  simp only [zero_add]

/-- A round that needs the bounce buffer is, with the buffer, that of a loop which has it from the
start. -/
theorem wp_writeLoop_unbuffered {fuel done : Nat} {Q : Nat → Fs → Prop} (hsize : ¬ size ≤ 0)
    (hchunk : ¬ chunkSize i size offset ≤ 0)
    (hpart : ¬ (offset.tmod sectorSize = 0 ∧ chunkSize i size offset = sectorSize)) :
    wp (writeLoop i buffer (fuel + 1) size offset done false) s Q ↔
      if s.allocFails then Q done s.afterAlloc
      else wp (writeLoop i buffer (fuel + 1) size offset done true) s.afterAlloc Q := by
  rw [writeLoop, if_neg hsize, if_neg hchunk, wp_bind, writeChunk, if_neg hpart,
    writeBounced, wp_bind, bounceBuffer, if_neg Bool.false_ne_true, wp_malloc_iff]
  cases s.allocFails with
  | true => simp
  | false =>
    rw [writeLoop, if_neg hsize, if_neg hchunk, wp_bind, writeChunk, if_neg hpart, writeBounced,
      wp_bind, bounceBuffer, if_pos rfl, wp_pure]
    simp

section

variable (hi : lookup Inode.ptr s.openInodes ptr = some i)
include hi

theorem wp_inodeWriteAt_denied (hdeny : i.denyWriteCnt ≠ 0) (Q : Nat → Fs → Prop) :
    wp (inodeWriteAt ptr buffer size offset) s Q ↔ Q 0 s := by
  rw [inodeWriteAt, wp_bind, wp_derefInode hi, if_pos hdeny, wp_pure]

/-! ## When allocation fails -/

/-- A request at the end of the inode, or for nothing, reads nothing and allocates nothing. -/
theorem wp_inodeReadAt_end (h0 : 0 ≤ offset) (hend : size ≤ 0 ∨ i.length ≤ offset)
    (Q : Nat × (Nat → UInt8) → Fs → Prop) :
    wp (inodeReadAt ptr buffer size offset) s Q ↔ Q (0, buffer) s := by
  rw [inodeReadAt, wp_bind, wp_derefInode hi]
  cases hn : size.toNat with
  | zero => rw [readLoop, wp_pure]
  | succ fuel =>
    have hsize : ¬ size ≤ 0 := by omega
    have hchunk : chunkSize i size offset ≤ 0 := by
      have hpos := (chunkSize_facts (i := i) h0 (not_le.1 hsize)).1
      omega
    rw [readLoop, if_neg hsize, if_pos hchunk, wp_pure]

theorem wp_inodeWriteAt_end (h0 : 0 ≤ offset) (hend : size ≤ 0 ∨ i.length ≤ offset)
    (Q : Nat → Fs → Prop) :
    wp (inodeWriteAt ptr buffer size offset) s Q ↔ Q 0 s := by
  by_cases hdeny : i.denyWriteCnt = 0
  · rw [inodeWriteAt, wp_bind, wp_derefInode hi, if_neg (not_not.2 hdeny)]
    cases hn : size.toNat with
    | zero => rw [writeLoop, wp_pure]
    | succ fuel =>
      have hsize : ¬ size ≤ 0 := by omega
      have hchunk : chunkSize i size offset ≤ 0 := by
        have hpos := (chunkSize_facts (i := i) h0 (not_le.1 hsize)).1
        omega
      rw [writeLoop, if_neg hsize, if_pos hchunk, wp_pure]
  · exact wp_inodeWriteAt_denied hi hdeny Q

/-- A request for less than a sector needs the bounce buffer for its first chunk: it is as if the
buffer were allocated before the loop, and without it nothing is read. -/
theorem wp_inodeReadAt_small (hd : DataOnDisk s i) (h0 : 0 ≤ offset) (hlt : offset < i.length)
    (hsize : 0 < size) (hsmall : size < sectorSize) (Q : Nat × (Nat → UInt8) → Fs → Prop) :
    wp (inodeReadAt ptr buffer size offset) s Q ↔
      if s.allocFails then Q (0, buffer) s.afterAlloc
      else Q (transferCnt i size offset, patch buffer 0 (transferCnt i size offset)
        fun j => s.disk (dataAddr i offset + j)) s.afterAlloc := by
  obtain ⟨hpos, hle, -, -⟩ := chunkSize_facts (i := i) h0 hsize
  have hpart : ¬ (offset.tmod sectorSize = 0 ∧ chunkSize i size offset = sectorSize) := by
    omega
  obtain ⟨fuel, hfuel⟩ : ∃ fuel, size.toNat = fuel + 1 := ⟨size.toNat - 1, by omega⟩
  -- with the buffer the first round is that of a loop which has it from the start
  have hround : wp (readLoop i (fuel + 1) size offset 0 false buffer) s Q ↔
      if s.allocFails then Q (0, buffer) s.afterAlloc
      else wp (readLoop i (fuel + 1) size offset 0 true buffer) s.afterAlloc Q := by
    rw [readLoop, if_neg (not_le.2 hsize), if_neg (not_le.2 (hpos.2 hlt)), wp_bind, readChunk,
      if_neg hpart, readBounced, wp_bind, bounceBuffer, if_neg Bool.false_ne_true, wp_malloc_iff]
    cases s.allocFails with
    | true => simp
    | false =>
      rw [readLoop, if_neg (not_le.2 hsize), if_neg (not_le.2 (hpos.2 hlt)), wp_bind, readChunk,
        if_neg hpart, readBounced, wp_bind, bounceBuffer, if_pos rfl, wp_pure]
      simp
  rw [inodeReadAt, wp_bind, wp_derefInode hi, hfuel, hround]
  cases s.allocFails with
  | true => rfl
  | false =>
    apply wp_iff_of_wp
    apply wp_readLoop (s := s.afterAlloc) (.inl rfl) (hd.congr rfl) h0 hfuel.le
    exact ⟨by rw [zero_add]; rfl, rfl⟩

theorem wp_inodeWriteAt_small (hd : DataOnDisk s i) (h0 : 0 ≤ offset) (hlt : offset < i.length)
    (hsize : 0 < size) (hsmall : size < sectorSize) (hdeny : i.denyWriteCnt = 0)
    (Q : Nat → Fs → Prop) :
    wp (inodeWriteAt ptr buffer size offset) s Q ↔
      if s.allocFails then Q 0 s.afterAlloc
      else Q (transferCnt i size offset)
        (s.afterAlloc.patchDisk (dataAddr i offset) (transferCnt i size offset) buffer) := by
  obtain ⟨hpos, hle, -, -⟩ := chunkSize_facts (i := i) h0 hsize
  have hpart : ¬ (offset.tmod sectorSize = 0 ∧ chunkSize i size offset = sectorSize) := by
    omega
  obtain ⟨fuel, hfuel⟩ : ∃ fuel, size.toNat = fuel + 1 := ⟨size.toNat - 1, by omega⟩
  rw [inodeWriteAt, wp_bind, wp_derefInode hi, if_neg (not_not.2 hdeny), hfuel,
    wp_writeLoop_unbuffered (not_le.2 hsize) (not_le.2 (hpos.2 hlt)) hpart]
  cases s.allocFails with
  | true => rfl
  | false =>
    apply wp_iff_of_wp
    apply wp_writeLoop (s := s.afterAlloc) (.inl rfl) (hd.congr rfl) h0 hfuel.le
    refine ⟨by rw [zero_add], ?_⟩
    simp only [zero_add]

end

end Flat

end Pintos.Filesys.InodeIo
