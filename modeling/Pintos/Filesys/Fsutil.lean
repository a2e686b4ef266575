import Pintos.Filesys.NamedFiles

/-!
# Copying files through the scratch disk

`fsutil_put` and `fsutil_get` of `filesys/fsutil.c`. Each file takes a header sector on the scratch
disk, with a signature and the size, and then whole sectors for its bytes. The two functions keep
their positions on the scratch disk in static variables of their own.
-/

set_option autoImplicit false

namespace Pintos.Filesys.Fsutil

open Lib.StateExcept Lib.ByteMemory LibKernel Filesys.State List
open Inode Filesys.File Directory Operations
open Layout Invariant FileCalls
open Create NamedFiles

/-- The file system and the scratch disk, with the positions of `fsutil_put` and `fsutil_get` on
it. -/
structure Machine where
  fs : Fs
  /-- `disk_get (1, 0)` finds a disk. -/
  hasScratch : Bool
  /-- The bytes of the scratch disk. -/
  scratch : Bytes
  /-- Its number of sectors. -/
  scratchSize : Nat
  putSector : Nat
  getSector : Nat

/-- Why the kernel stops. -/
inductive FsutilPanic where
  | kernel (e : Panic)
  | noBuffer
  | noScratch
  | missingSignature
  | invalidSize
  | createFailed
  | openFailed
  | writeFailed
  | outOfSpace
  | readFailed
  deriving DecidableEq

/-- Code of `fsutil.c`. -/
abbrev FsutilM (α : Type) : Type := Comp Machine FsutilPanic α

/-- A call of the file system. -/
def inFs {α : Type} (x : FsM α) : FsutilM α := fun m =>
  match x m.fs with
  | .ok (a, s) => .ok (a, { m with fs := s })
  | .error e => .error (.kernel e)

/-- The assertions that every access to the scratch disk passes. -/
def selectScratch (sector : Nat) : FsutilM Unit := do
  check (sector < (← get).scratchSize) (.kernel .diskCapacity)
  check (sector < 2 ^ 28) (.kernel .diskLba)

/-- `disk_read` of the scratch disk. -/
def readScratch (sector : Nat) : FsutilM (Nat → UInt8) := do
  selectScratch sector
  let m ← get
  return fun i => m.scratch (sectorSize * sector + i)

/-- The machine after a sector of the scratch disk is written. -/
def Machine.patchScratch (m : Machine) (sector : Nat) (block : Nat → UInt8) : Machine :=
  { m with scratch := patch m.scratch (sectorSize * sector) sectorSize block }

/-- `disk_write` to the scratch disk. -/
def writeScratch (sector : Nat) (block : Nat → UInt8) : FsutilM Unit := do
  selectScratch sector
  modify fun m => m.patchScratch sector block

/-- `sector++` of `fsutil_put`, a 32-bit counter. -/
def nextPut : FsutilM Nat := do
  let m ← get
  set { m with putSector := (m.putSector + 1) % 2 ^ 32 }
  return m.putSector

/-- `sector++` of `fsutil_get`. -/
def nextGet : FsutilM Nat := do
  let m ← get
  set { m with getSector := (m.getSector + 1) % 2 ^ 32 }
  return m.getSector

/-- The bytes of the texts `"PUT"` and `"GET"`, with the terminator. -/
def putSignature : List UInt8 := [0x50, 0x55, 0x54, 0]

def getSignature : List UInt8 := [0x47, 0x45, 0x54, 0]

/-- `((int32_t *) buffer)[1]`. -/
def headerSize (block : Nat → UInt8) : Int := Int.bmod (readLE block 4 4) (2 ^ 32)

/-- The number of bytes for the next sector. -/
def sectorChunk (size : Int) : Int := if size > sectorSize then sectorSize else size

/-- The loop of `fsutil_put`. Each round that goes on lowers `size`, which bounds the rounds. -/
def putLoop (dst : Nat) : Nat → Int → FsutilM Unit
  | 0, _ => return
  | fuel + 1, size =>
    if size > 0 then do
      let chunk := sectorChunk size
      let block ← readScratch (← nextPut)
      let written ← inFs (fileWrite dst block chunk)
      check (written = chunk) .writeFailed
      putLoop dst fuel (size - chunk)
    else
      return

/-- `fsutil_put`. -/
def fsutilPut (name : CString) : FsutilM Unit := do
  let buffer ← inFs malloc
  check (buffer = true) .noBuffer
  check ((← get).hasScratch = true) .noScratch
  let block ← readScratch (← nextPut)
  check (bytesAt block 0 4 = putSignature) .missingSignature
  let size := headerSize block
  check (0 ≤ size) .invalidSize
  let created ← inFs (filesysCreate name size)
  check (created = true) .createFailed
  match ← inFs (filesysOpen name) with
  | none => throw .openFailed
  | some dst =>
    putLoop dst size.toNat size
    inFs (fileClose (some dst))

/-- The header sector that `fsutil_get` writes. -/
def getHeader (size : Int) : Nat → UInt8 :=
  let block := patch (fun _ => 0) 0 4 fun i => getSignature.getD i 0
  writeLE block 4 4 (size % 2 ^ 32).toNat

/-- The loop of `fsutil_get`, with the buffer. -/
def getLoop (src : Nat) : Nat → Int → (Nat → UInt8) → FsutilM Unit
  | 0, _, _ => return
  | fuel + 1, size, buffer =>
    if size > 0 then do
      let chunk := sectorChunk size
      let m ← get
      check (m.getSector < m.scratchSize) .outOfSpace
      let (bytesRead, buffer) ← inFs (fileRead src buffer chunk)
      check (bytesRead = chunk) .readFailed
      let buffer := patch buffer chunk.toNat (sectorSize - chunk.toNat) fun _ => 0
      writeScratch (← nextGet) buffer
      getLoop src fuel (size - chunk) buffer
    else
      return

/-- `fsutil_get`. -/
def fsutilGet (name : CString) : FsutilM Unit := do
  let buffer ← inFs malloc
  check (buffer = true) .noBuffer
  match ← inFs (filesysOpen name) with
  | none => throw .openFailed
  | some src =>
    let size ← inFs (fileLength src)
    check ((← get).hasScratch = true) .noScratch
    writeScratch (← nextGet) (getHeader size)
    getLoop src size.toNat size (getHeader size)
    inFs (fileClose (some src))

/-! ## Rules -/

section Rules

variable {m : Machine}

@[simp] theorem wp_inFs {α : Type} (x : FsM α) (Q : α → Machine → Prop) :
    wp (inFs x) m Q ↔ wp x m.fs fun a s => Q a { m with fs := s } := by
  cases hx : x m.fs with
  | ok p =>
    have hrun : inFs x m = .ok (p.1, { m with fs := p.2 }) := by
      simp only [inFs, hx]
    constructor
    · intro h
      exact ⟨p.1, p.2, hx, wp_of_eq_ok h hrun⟩
    · rintro ⟨a, t, hok, hQ⟩
      obtain rfl : p = (a, t) := Except.ok.inj (hx.symm.trans hok)
      exact ⟨a, _, hrun, hQ⟩
  | error e =>
    have hrun : inFs x m = .error (.kernel e) := by
      simp only [inFs, hx]
    constructor
    · rintro ⟨a, t, hok, -⟩
      rw [hrun] at hok
      cases hok
    · rintro ⟨a, t, hok, -⟩
      rw [hx] at hok
      cases hok

/-- The sector of the scratch disk may be accessed. -/
def OnScratch (m : Machine) (sector : Nat) : Prop := sector < m.scratchSize ∧ sector < 2 ^ 28

@[simp] theorem wp_readScratch (sector : Nat) (Q : (Nat → UInt8) → Machine → Prop) :
    wp (readScratch sector) m Q ↔
      OnScratch m sector ∧ Q (fun i => m.scratch (sectorSize * sector + i)) m := by
  simp [readScratch, selectScratch, OnScratch, and_assoc]

@[simp] theorem wp_writeScratch (sector : Nat) (block : Nat → UInt8) (Q : Unit → Machine → Prop) :
    wp (writeScratch sector block) m Q ↔ OnScratch m sector ∧
      Q () (m.patchScratch sector block) := by
  simp [writeScratch, selectScratch, OnScratch, and_assoc]

@[simp] theorem wp_nextPut (Q : Nat → Machine → Prop) :
    wp nextPut m Q ↔ Q m.putSector { m with putSector := (m.putSector + 1) % 2 ^ 32 } := by
  simp [nextPut]

@[simp] theorem wp_nextGet (Q : Nat → Machine → Prop) :
    wp nextGet m Q ↔ Q m.getSector { m with getSector := (m.getSector + 1) % 2 ^ 32 } := by
  simp [nextGet]

end Rules

/-! ## The format -/

/-- The number of sectors for the bytes of a file. -/
def dataSectors (n : Nat) : Nat := (n + 511) / 512

theorem dataSectors_pos {n : Nat} (h : 0 < n) : dataSectors n = dataSectors (n - 512) + 1 := by
  simp only [dataSectors]
  omega

theorem le_dataSectors (n : Nat) : n ≤ 512 * dataSectors n := by
  simp only [dataSectors]
  omega

/-- The bytes of a file, with zeros up to the end of the last sector. -/
def padded (data : List UInt8) : List UInt8 :=
  data ++ List.replicate (512 * dataSectors data.length - data.length) 0

theorem length_padded (data : List UInt8) :
    (padded data).length = 512 * dataSectors data.length := by
  have hle := le_dataSectors data.length
  rw [padded, length_append, length_replicate]
  omega

/-- The header sector of a file on the scratch disk. -/
def header (signature data : List UInt8) : List UInt8 :=
  signature ++ (bytesLE 4 data.length ++ List.replicate 504 0)

variable {signature data : List UInt8}

theorem length_header (h : signature.length = 4) :
    (header signature data).length = 512 := by
  simp only [header, length_append, length_replicate, length_bytesLE, h]

/-- A file on the scratch disk: the header sector, the bytes, and zeros up to the end of the last
sector. -/
def record (signature data : List UInt8) : List UInt8 := header signature data ++ padded data

theorem length_record (h : signature.length = 4) :
    (record signature data).length = 512 * (1 + dataSectors data.length) := by
  rw [record, length_append, length_header h, length_padded]
  omega

/-- The bytes of one sector are the first ones of those that are left. -/
theorem sectorChunk_eq (data : List UInt8) : sectorChunk data.length = (data.take 512).length := by
  have hss : ((sectorSize : Nat) : Int) = 512 := rfl
  rw [sectorChunk, length_take, hss]
  by_cases hlong : (data.length : Int) > 512
  · omega
  · omega

/-! ## `fsutil_put` -/

section Put

variable {m : Machine} {f : File} {i : Inode} {size : Nat}

/-- The loop of `fsutil_put` writes the bytes that are left, from the sectors that follow. -/
theorem wp_putLoop {fuel : Nat} {written rest : List UInt8} (hw : Writing m.fs f i size written)
    (hsize : written.length + rest.length = size) (hfuel : rest.length ≤ fuel)
    (hrest : Holds m.scratch (sectorSize * m.putSector) rest)
    (hroom : m.putSector + dataSectors rest.length ≤ m.scratchSize)
    (hlba : m.putSector + dataSectors rest.length ≤ 2 ^ 28) :
    wp (putLoop f.ptr fuel rest.length) m fun _ t =>
      ∃ f', f'.ptr = f.ptr ∧ Writing t.fs f' i size (written ++ rest) ∧
        AgreeOn m.fs.disk t.fs.disk (extent m.fs.disk i.sector)ᶜ ∧
        t = { m with fs := t.fs, putSector := m.putSector + dataSectors rest.length } := by
  induction fuel generalizing m f written rest with
  | zero =>
    obtain rfl := length_eq_zero_iff.1 (Nat.le_zero.1 hfuel)
    rw [putLoop, wp_pure]
    exact ⟨f, rfl, by rwa [append_nil], fun _ _ _ _ => rfl, rfl⟩
  | succ fuel ih =>
    rw [putLoop, wp_ite]
    constructor
    · intro hpos
      have hlen : 0 < rest.length := by omega
      have hsectors := dataSectors_pos hlen
      have hon : OnScratch m m.putSector := ⟨by omega, by omega⟩
      have hnext : (m.putSector + 1) % 2 ^ 32 = m.putSector + 1 := Nat.mod_eq_of_lt (by omega)
      -- the bytes of the next sector and those after them
      rw [← take_append_drop 512 rest, holds_append] at hrest
      have hblock : Holds (fun j => m.scratch (sectorSize * m.putSector + j)) 0
          (rest.take 512) := by
        rw [holds_iff]
        intro j hj
        rw [Nat.zero_add]
        exact holds_iff.1 hrest.1 j hj
      have htake : (rest.take 512).length = min 512 rest.length := length_take
      have hdrop : (rest.drop 512).length = rest.length - 512 := length_drop
      rw [wp_bind, wp_nextPut, hnext, wp_bind, wp_readScratch]
      refine ⟨hon, ?_⟩
      rw [sectorChunk_eq, wp_bind, wp_inFs]
      apply wp_mono (hw.wp_fileWrite (by omega) hblock)
      rintro n t ⟨rfl, hw', hagree⟩
      rw [wp_bind, wp_check]
      refine ⟨rfl, ?_⟩
      have hleft : (rest.length : Int) - ((rest.take 512).length : Nat) =
          ((rest.drop 512).length : Nat) := by
        omega
      have hholds : Holds m.scratch (sectorSize * (m.putSector + 1)) (rest.drop 512) := by
        by_cases hlong : 512 ≤ rest.length
        · have haddr : sectorSize * (m.putSector + 1) =
              sectorSize * m.putSector + (rest.take 512).length := by
            simp only [sectorSize]
            omega
          rw [haddr]
          exact hrest.2
        · rw [drop_eq_nil_of_le (by omega)]
          trivial
      rw [hleft]
      refine wp_mono (ih (m := { m with fs := t, putSector := m.putSector + 1 })
        (f := { f with pos := f.pos + (rest.take 512).length }) hw' ?_ ?_ hholds ?_ ?_) ?_
      · rw [length_append]
        omega
      · omega
      · rw [hdrop]
        show m.putSector + 1 + dataSectors (rest.length - 512) ≤ m.scratchSize
        omega
      · rw [hdrop]
        show m.putSector + 1 + dataSectors (rest.length - 512) ≤ 2 ^ 28
        omega
      · rintro _ u ⟨f', hptr, hwu, hagree', hu⟩
        refine ⟨f', hptr, ?_, ?_, ?_⟩
        · rwa [append_assoc, take_append_drop] at hwu
        · -- the data sectors of the inode are the same all the time
          have hextent : extent t.disk i.sector = extent m.fs.disk i.sector :=
            (extent_of_open hw'.inv hw'.inode).trans (extent_of_open hw.inv hw.inode).symm
          intro x hx j hj
          have hx' := hx
          rw [← hextent] at hx'
          exact (hagree' x hx' j hj).trans (hagree x hx j hj)
        · rw [hu, hdrop, hsectors]
          simp only [Nat.add_assoc, Nat.add_comm 1]
    · intro hzero
      obtain rfl : rest = [] := length_eq_zero_iff.1 (by omega)
      rw [wp_pure]
      exact ⟨f, rfl, by rwa [append_nil], fun _ _ _ _ => rfl, rfl⟩

/-- The header sector of a record. -/
theorem header_of_record {sector : Nat} (hsig : signature.length = 4) (hlen : data.length < 2 ^ 31)
    (h : Holds m.scratch (sectorSize * sector) (record signature data)) :
    bytesAt (fun j => m.scratch (sectorSize * sector + j)) 0 4 = signature ∧
      headerSize (fun j => m.scratch (sectorSize * sector + j)) = data.length ∧
      Holds m.scratch (sectorSize * (sector + 1)) data := by
  rw [record, padded, holds_append, holds_append, length_header hsig] at h
  have hheader := h.1
  have hdata := h.2.1
  rw [header, holds_append, holds_append, hsig] at hheader
  have hsignature := hheader.1
  have hsize := hheader.2.1
  refine ⟨?_, ?_, ?_⟩
  · have hblock : Holds (fun j => m.scratch (sectorSize * sector + j)) 0 signature := by
      rw [holds_iff]
      intro j hj
      rw [Nat.zero_add]
      exact holds_iff.1 hsignature j hj
    rw [bytesAt_of_holds hblock hsig.le, hsig]
    exact append_nil _
  · have hread : readLE (fun j => m.scratch (sectorSize * sector + j)) 4 4 =
        readLE m.scratch 4 (sectorSize * sector + 4) :=
      readLE_congr fun j _ => by rw [Nat.add_assoc]
    have hsmall : data.length % 256 ^ 4 = data.length := Nat.mod_eq_of_lt (by norm_num; omega)
    have hvalue := hread.trans ((readLE_of_holds hsize).trans hsmall)
    unfold headerSize
    rw [hvalue, bmod_of_lt hlen]
  · exact hdata

/-- What `fsutil_put` does to the file system: the new file is there, under a name that was not in
use, and the other files are kept. -/
structure PutEffect (s t : Fs) (name : CString) (data : List UInt8) : Prop where
  inv : Inv t []
  file : HasFile t.disk name data
  unused : ∀ k < rootEntries, ¬ EntryFor (rootSlot s.disk k) name
  others : ∀ name' data', HasFile s.disk name' data' → HasFile t.disk name' data'

/-- **`fsutil_put`**, when the file can be created, takes the record at its position and moves
behind it. -/
theorem wp_fsutilPut {name : CString} (hinv : Inv m.fs []) (hscratch : m.hasScratch = true)
    (hlen : data.length < 2 ^ 31)
    (hrecord : Holds m.scratch (sectorSize * m.putSector) (record putSignature data))
    (hroom : m.putSector + (1 + dataSectors data.length) ≤ m.scratchSize)
    (hlba : m.putSector + (1 + dataSectors data.length) ≤ 2 ^ 28)
    (hcreate : ∃ s, filesysCreate name data.length m.fs = .ok (true, s)) :
    wp (fsutilPut name) m fun _ t => PutEffect m.fs t.fs name data ∧
      t = { m with fs := t.fs, putSector := m.putSector + (1 + dataSectors data.length) } := by
  obtain ⟨hsignature, hsize, hdata⟩ := header_of_record rfl hlen hrecord
  have hon : OnScratch m m.putSector := ⟨by omega, by omega⟩
  have hnext : (m.putSector + 1) % 2 ^ 32 = m.putSector + 1 := Nat.mod_eq_of_lt (by omega)
  obtain ⟨s, hcreated⟩ := hcreate
  obtain ⟨h, hnew, -⟩ := wlp_filesysCreate_file hinv (by omega) true s hcreated rfl
  obtain ⟨k, hb, hfor⟩ := hnew.named
  simp only [fsutilPut, wp_bind, wp_inFs, wp_malloc hinv.failures, wp_check, wp_get,
    wp_nextPut, hnext, wp_readScratch, hsize]
  refine ⟨trivial, hscratch, hon, hsignature, Int.natCast_nonneg _, true, s, hcreated, rfl, ?_⟩
  apply wp_mono (wp_filesysOpen_bound hnew.inv hb hfor)
  rintro _ u ⟨f, i, rfl, ho⟩
  -- the file is open and nothing is written yet
  have hlength : i.length = data.length := by
    rw [(ho.inv.data i ho.inode).2, ho.sector, ho.disk, hnew.length]
  have hw : Writing u f i data.length [] :=
    ⟨⟨ho.inv, ho.file, ho.user, ho.pos, ho.inode, ho.ptr, removed_of_bound ho hb⟩,
      ho.allows hnew.closed, hlength, trivial⟩
  have hroot : i.sector ≠ rootDirSector := ho.sector ▸ (hnew.inv.disk.bound_ne k h hb).2
  dsimp only
  rw [wp_bind, Int.toNat_natCast]
  refine wp_mono
    (wp_putLoop (m := { m with fs := u, putSector := m.putSector + 1 }) hw (Nat.zero_add _)
    (le_refl _) hdata ?_ ?_) ?_
  · show m.putSector + 1 + dataSectors data.length ≤ m.scratchSize
    omega
  · show m.putSector + 1 + dataSectors data.length ≤ 2 ^ 28
    omega
  rintro _ v ⟨f', hptr, hwv, hagree, hv⟩
  rw [wp_inFs, ← hptr]
  refine wp_mono hwv.toHandle.wp_fileClose ?_
  rintro _ w ⟨hinvw, hdiskw⟩
  have hagree' : AgreeOn s.disk w.disk (extent s.disk i.sector)ᶜ := by
    rw [hdiskw, ← ho.disk]
    exact hagree
  -- the entries and the other files are kept while the new one is written
  have hkeeps : ∀ {k' g : Nat}, Bound s.disk k' g →
      (∀ j < entrySize, rootSlot w.disk k' j = rootSlot s.disk k' j) ∧
        (g ≠ i.sector → AgreeOn s.disk w.disk (owned s.disk g)) := by
    intro k' g hb'
    rw [← ho.disk] at hagree' hb' ⊢
    exact bound_of_written ho.inv ho.inode hroot hagree' hb'
  refine ⟨⟨hinvw, ?_, hnew.unused, ?_⟩, ?_⟩
  · have hslot := (hkeeps hb).1
    refine ⟨k, h, ⟨⟨hb.1, ?_, ?_⟩, ⟨?_, ?_⟩, ?_⟩⟩
    · rw [entryInUse_congr hslot]
      exact hb.2.1
    · rw [entrySector_congr hslot]
      exact hb.2.2
    · rw [entryInUse_congr hslot]
      exact hfor.1
    · rw [entryName_congr hslot]
      exact hfor.2
    · rw [hdiskw, ← ho.sector]
      exact hwv.stored
  · rintro name' data' ⟨k', g, hat⟩
    obtain ⟨hne, hslot, hold⟩ := hnew.others k' g hat.bound
    have hat1 := hat.congr hslot hold
    obtain ⟨hslot', hold'⟩ := hkeeps hat1.bound
    exact ⟨k', g, hat1.congr hslot' (hold' (ho.sector.symm ▸ hne))⟩
  · rw [hv, Nat.add_assoc]

end Put

/-! ## `fsutil_get` -/

section Get

variable {m : Machine} {f : File} {i : Inode}

/-- The first sector of the padded bytes, and the others. -/
theorem padded_step (h : 0 < data.length) :
    padded data = (data.take 512 ++ List.replicate (512 - (data.take 512).length) 0) ++
      padded (data.drop 512) := by
  have htake : (data.take 512).length = min 512 data.length := length_take
  have hdrop : (data.drop 512).length = data.length - 512 := length_drop
  by_cases hlong : 512 ≤ data.length
  · have hfull : 512 - (data.take 512).length = 0 := by omega
    have hpad : 512 * dataSectors data.length - data.length =
        512 * dataSectors (data.drop 512).length - (data.drop 512).length := by
      rw [dataSectors_pos h, hdrop]
      omega
    rw [hfull, replicate_zero, append_nil, padded, padded, ← append_assoc,
      take_append_drop, hpad]
  · have hone : dataSectors data.length = 1 := by
      simp only [dataSectors]
      omega
    have hnil : data.drop 512 = [] := drop_eq_nil_of_le (by omega)
    have hwhole : data.take 512 = data := take_of_length_le (by omega)
    rw [hnil, hwhole, padded, hone]
    exact (append_nil _).symm

/-- The machine after sectors of the scratch disk from its position on are written by
`fsutil_get`. -/
structure Fetched (m t : Machine) (bytes : List UInt8) (cnt : Nat) : Prop where
  holds : Holds t.scratch (sectorSize * m.getSector) bytes
  before : ∀ x < sectorSize * m.getSector, t.scratch x = m.scratch x
  after : ∀ x, sectorSize * (m.getSector + cnt) ≤ x → t.scratch x = m.scratch x
  sector : t.getSector = m.getSector + cnt
  size : t.scratchSize = m.scratchSize
  present : t.hasScratch = m.hasScratch

theorem Fetched.refl (m : Machine) : Fetched m m [] 0 :=
  ⟨trivial, fun _ _ => rfl, fun _ _ => rfl, rfl, rfl, rfl⟩

/-- Sectors that are written one after the other. -/
theorem Fetched.trans {t u : Machine} {bytes bytes' : List UInt8} {cnt cnt' : Nat}
    (h : Fetched m t bytes cnt) (h' : Fetched t u bytes' cnt')
    (hlen : bytes.length = sectorSize * cnt) :
    Fetched m u (bytes ++ bytes') (cnt + cnt') where
  holds := by
    have hnext : sectorSize * m.getSector + bytes.length = sectorSize * t.getSector := by
      rw [hlen, h.sector, Nat.mul_add]
    rw [holds_append, hnext]
    refine ⟨h.holds.congr ?_, h'.holds⟩
    intro j hj
    exact h'.before _ (by omega)
  before := by
    intro x hx
    have hle : sectorSize * m.getSector ≤ sectorSize * t.getSector :=
      Nat.mul_le_mul_left _ (h.sector ▸ Nat.le_add_right _ _)
    rw [h'.before x (lt_of_lt_of_le hx hle), h.before x hx]
  after := by
    intro x hx
    have hle : sectorSize * (m.getSector + cnt) ≤ sectorSize * (m.getSector + (cnt + cnt')) :=
      Nat.mul_le_mul_left _ (by omega)
    rw [h'.after x (by rwa [h.sector, Nat.add_assoc]), h.after x (hle.trans hx)]
  sector := by rw [h'.sector, h.sector, Nat.add_assoc]
  size := h'.size.trans h.size
  present := h'.present.trans h.present

/-- One sector is written. -/
theorem fetched_sector {s : Fs} {block : Nat → UInt8} {bytes : List UInt8}
    (hblock : Holds block 0 bytes) (hlen : bytes.length = 512) :
    Fetched m
      (Machine.patchScratch { m with fs := s, getSector := m.getSector + 1 } m.getSector block)
      bytes 1 where
  holds := by
    rw [holds_iff]
    intro j hj
    have hbyte := holds_iff.1 hblock j hj
    rw [Nat.zero_add] at hbyte
    show patch m.scratch (sectorSize * m.getSector) sectorSize block _ = _
    rw [patch_inside (by omega) (by simp only [sectorSize]; omega), Nat.add_sub_cancel_left, hbyte]
  before := fun _ hx => patch_outside (Or.inl hx)
  after := fun _ hx => patch_outside (Or.inr hx)
  sector := rfl
  size := rfl
  present := rfl

/-- The loop of `fsutil_get` writes the bytes that are left, in whole sectors. -/
theorem wp_getLoop {fuel : Nat} {done rest : List UInt8} {buffer : Nat → UInt8}
    (hr : Reading m.fs f i (done ++ rest) done.length) (hfuel : rest.length ≤ fuel)
    (hroom : m.getSector + dataSectors rest.length ≤ m.scratchSize)
    (hlba : m.getSector + dataSectors rest.length ≤ 2 ^ 28) :
    wp (getLoop f.ptr fuel rest.length buffer) m fun _ t =>
      (∃ f' pos, f'.ptr = f.ptr ∧ Handle t.fs f' i pos) ∧ t.fs.disk = m.fs.disk ∧
        Fetched m t (padded rest) (dataSectors rest.length) := by
  induction fuel generalizing m f done rest buffer with
  | zero =>
    obtain rfl := length_eq_zero_iff.1 (Nat.le_zero.1 hfuel)
    rw [getLoop, wp_pure]
    exact ⟨⟨f, _, rfl, hr.toHandle⟩, rfl, Fetched.refl m⟩
  | succ fuel ih =>
    rw [getLoop, wp_ite]
    constructor
    · intro hpos
      have hlen : 0 < rest.length := by omega
      have hsectors := dataSectors_pos hlen
      have hon : OnScratch m m.getSector := ⟨by omega, by omega⟩
      have hnext : (m.getSector + 1) % 2 ^ 32 = m.getSector + 1 := Nat.mod_eq_of_lt (by omega)
      have htake : (rest.take 512).length = min 512 rest.length := length_take
      have hdrop : (rest.drop 512).length = rest.length - 512 := length_drop
      have hsplit : done ++ rest = done ++ (rest.take 512 ++ rest.drop 512) := by
        rw [take_append_drop]
      rw [wp_bind, wp_get, wp_bind, wp_check]
      refine ⟨hon.1, ?_⟩
      rw [sectorChunk_eq, wp_bind, wp_inFs]
      refine wp_mono
        (Reading.wp_fileRead done (rest.take 512) (rest.drop 512) (hsplit ▸ hr) buffer) ?_
      rintro ⟨n, block⟩ t ⟨hn, hblock, hdisk, hr'⟩
      subst hn
      rw [wp_bind, wp_check]
      refine ⟨rfl, ?_⟩
      rw [wp_bind, wp_nextGet]
      rw [hnext, wp_bind, wp_writeScratch]
      refine ⟨hon, ?_⟩
      -- the sector that is written holds the bytes that were read and zeros
      have hsector : Holds (patch block ((rest.take 512).length : Int).toNat
          (sectorSize - ((rest.take 512).length : Int).toNat) fun _ => 0) 0
          (rest.take 512 ++ List.replicate (512 - (rest.take 512).length) 0) := by
        rw [Int.toNat_natCast, holds_append]
        constructor
        · apply hblock.congr
          intro j hj
          exact patch_outside (Or.inl (by omega))
        · rw [holds_iff]
          intro j hj
          have hlt := hj
          rw [length_replicate] at hlt
          rw [patch_inside (by omega) (by simp only [sectorSize]; omega), getD_eq_getElem?_getD,
            List.getElem?_replicate, if_pos hlt]
          rfl
      have hlen512 : (rest.take 512 ++ List.replicate (512 - (rest.take 512).length) 0).length =
          512 := by
        rw [length_append, length_replicate]
        omega
      have hfetched := fetched_sector (m := m) (s := t) hsector hlen512
      have hleft : (rest.length : Int) - ((rest.take 512).length : Nat) =
          ((rest.drop 512).length : Nat) := by
        omega
      have hr'' : Reading t { f with pos := f.pos + (rest.take 512).length } i
          ((done ++ rest.take 512) ++ rest.drop 512) (done ++ rest.take 512).length := by
        rw [append_assoc, length_append]
        exact hr'
      rw [hleft]
      refine wp_mono (ih (m := Machine.patchScratch { m with fs := t, getSector := m.getSector + 1 }
        m.getSector _) (f := { f with pos := f.pos + (rest.take 512).length }) hr'' ?_ ?_ ?_) ?_
      · omega
      · rw [hdrop]
        show m.getSector + 1 + dataSectors (rest.length - 512) ≤ m.scratchSize
        omega
      · rw [hdrop]
        show m.getSector + 1 + dataSectors (rest.length - 512) ≤ 2 ^ 28
        omega
      · rintro _ u ⟨hhandle, hdisk', hfetched'⟩
        refine ⟨hhandle, hdisk'.trans hdisk, ?_⟩
        rw [padded_step hlen, hsectors, Nat.add_comm]
        rw [hdrop] at hfetched'
        exact hfetched.trans hfetched' hlen512
    · intro hzero
      obtain rfl : rest = [] := length_eq_zero_iff.1 (by omega)
      rw [wp_pure]
      exact ⟨⟨f, _, rfl, hr.toHandle⟩, rfl, Fetched.refl m⟩

/-- The header that `fsutil_get` writes. -/
theorem holds_getHeader (hlen : data.length < 2 ^ 31) :
    Holds (getHeader data.length) 0 (header getSignature data) := by
  have hsize : (((data.length : Int) % 2 ^ 32).toNat) = data.length := by omega
  rw [header, holds_append, holds_append, getHeader, hsize]
  refine ⟨?_, ?_, ?_⟩
  · refine ⟨?_, ?_, ?_, ?_, trivial⟩ <;> rfl
  · rw [holds_iff]
    intro j hj
    rw [length_bytesLE] at hj
    rw [getD_bytesLE hj]
    show writeLE _ 4 4 data.length (4 + j) = _
    rw [writeLE, patch_inside (by omega) (by omega), Nat.add_sub_cancel_left]
  · rw [length_bytesLE, holds_iff]
    intro j hj
    rw [length_replicate] at hj
    rw [getD_eq_getElem?_getD, List.getElem?_replicate, if_pos hj]
    show writeLE _ 4 4 data.length (8 + j) = _
    rw [writeLE, patch_outside (by omega), patch_outside (by omega)]
    rfl

/-- **`fsutil_get`** writes the record of the file at its position and moves behind it. -/
theorem wp_fsutilGet {name : CString} (hinv : Inv m.fs []) (hscratch : m.hasScratch = true)
    (hfile : HasFile m.fs.disk name data)
    (hroom : m.getSector + (1 + dataSectors data.length) ≤ m.scratchSize)
    (hlba : m.getSector + (1 + dataSectors data.length) ≤ 2 ^ 28) :
    wp (fsutilGet name) m fun _ t => Inv t.fs [] ∧ t.fs.disk = m.fs.disk ∧
      Fetched m t (record getSignature data) (1 + dataSectors data.length) := by
  have hlen : data.length < 2 ^ 31 := by
    obtain ⟨k, h, hat⟩ := hfile
    have hlt := headerLength_lt m.fs.disk h
    rw [hat.stored.length] at hlt
    omega
  have hon : OnScratch m m.getSector := ⟨by omega, by omega⟩
  have hnext : (m.getSector + 1) % 2 ^ 32 = m.getSector + 1 := Nat.mod_eq_of_lt (by omega)
  rw [fsutilGet, wp_bind, wp_inFs, wp_malloc hinv.failures, wp_bind, wp_check]
  refine ⟨rfl, ?_⟩
  rw [wp_bind, wp_inFs]
  refine wp_mono (wp_filesysOpen_file hinv hfile) ?_
  rintro _ u ⟨f, i, rfl, hr, hdisk⟩
  rw [wp_bind, wp_inFs, hr.wp_fileLength, hr.length, wp_bind, wp_get, wp_bind, wp_check]
  refine ⟨hscratch, ?_⟩
  rw [wp_bind, wp_nextGet]
  rw [hnext, wp_bind, wp_writeScratch]
  refine ⟨hon, ?_⟩
  have hheader := fetched_sector (m := m) (s := u) (holds_getHeader hlen) (length_header rfl)
  rw [wp_bind, Int.toNat_natCast]
  have hstart : Reading u f i ([] ++ data) ([] : List UInt8).length := hr
  refine wp_mono
    (wp_getLoop (m := Machine.patchScratch { m with fs := u, getSector := m.getSector + 1 }
    m.getSector (getHeader data.length)) hstart (le_refl _) ?_ ?_) ?_
  · show m.getSector + 1 + dataSectors data.length ≤ m.scratchSize
    omega
  · show m.getSector + 1 + dataSectors data.length ≤ 2 ^ 28
    omega
  rintro _ v ⟨⟨f', pos, hptr, hhandle⟩, hdiskv, hfetched⟩
  rw [wp_inFs, ← hptr]
  refine wp_mono hhandle.wp_fileClose ?_
  rintro _ w ⟨hinvw, hdiskw⟩
  refine ⟨hinvw, (hdiskw.trans hdiskv).trans hdisk, ?_⟩
  have hwhole := hheader.trans hfetched (length_header rfl)
  exact ⟨hwhole.holds, hwhole.before, hwhole.after, hwhole.sector, hwhole.size, hwhole.present⟩

end Get

end Pintos.Filesys.Fsutil
