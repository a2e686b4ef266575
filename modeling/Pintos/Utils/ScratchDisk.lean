import Pintos.Filesys.Fsutil
import Pintos.Filesys.DirectoryMemory
import Pintos.Filesys.Guarantees
import Pintos.Utils.CommandLine

/-!
# The scratch disk

The other end of `fsutil_put` and `fsutil_get`: the utility `utils/pintos` writes the files that go
into the file system to the scratch disk before the kernel boots (`__prepare_scratch_files`), and
reads the files that come out of it afterwards (`get_files`). Both ends use the format `record`.
What is put in arrives as it is (`put_roundTrip`); what is fetched is read back only if each file
but the last fills its sectors, because `get_files` does not skip the padding (`get_roundTrip_iff`).
-/

set_option autoImplicit false

namespace Pintos.Utils.ScratchDisk

open List hiding get set modify

open Lib.StateExcept Lib.ByteMemory LibKernel Filesys.State
open Filesys.Inode Filesys.Directory Filesys.Operations Filesys.Layout
open Filesys.Invariant Filesys.Sequences Filesys.Guarantees Filesys.NamedFiles
open Filesys.Fsutil CommandLine

/-! ## The utility -/

/-- Why the utility stops. -/
inductive ScratchError where
  /-- `struct.pack("<I", v)` of a value that is too large, or `struct.unpack` of too few bytes. -/
  | structError
  /-- `get[1]` of an argument without a host name. -/
  | indexError
  deriving DecidableEq

/-- `bytes('\0' * n, 'utf-8')`. -/
def zeros (n : Nat) : List UInt8 := utf8 (List.replicate n '\x00')

/-- `align`. -/
def align (s : List UInt8) (size : Nat) : List UInt8 :=
  if s.length % size ≠ 0 then s ++ zeros (size - s.length % size) else s

/-- `struct.pack("<I", v)`. -/
def pack (v : Nat) : Except ScratchError (List UInt8) :=
  if v < 2 ^ 32 then .ok (bytesLE 4 v) else .error .structError

/-- The value of little-endian bytes. -/
def valueLE : List UInt8 → Nat
  | [] => 0
  | b :: l => b.toNat + 256 * valueLE l

/-- `struct.unpack("<I", b)[0]`. -/
def unpack (b : List UInt8) : Except ScratchError Nat :=
  if b.length = 4 then .ok (valueLE b) else .error .structError

/-- A file to copy in: its name on the host, the name after the colon if there is one, and what it
holds. -/
structure HostFile where
  host : Text
  guest : Option Text
  data : List UInt8

/-- The loop of `__prepare_scratch_files` over the files to copy in: their names for the kernel, and
what is written to the scratch disk. -/
def writePuts : List HostFile → Except ScratchError (List Text × List UInt8)
  | [] => .ok ([], [])
  | file :: rest => do
    let size ← pack file.data.length
    let (puts, disk) ← writePuts rest
    return (file.guest.getD file.host :: puts,
      (utf8 ['P', 'U', 'T', '\x00'] ++ size ++ zeros 504 ++ align file.data 512) ++ disk)

/-- `__prepare_scratch_files`: the names for `put`, the arguments for `get`, and the scratch
disk. -/
def prepareScratchFiles (hostFns : List HostFile) (guestFns : List (List Text)) :
    Except ScratchError (List Text × List (List Text) × List UInt8) := do
  let (puts, disk) ← writePuts hostFns
  return (puts, guestFns, disk ++ guestFns.flatMap fun _ => zeros 0x100000)

/-- `get_files`, `f` being what is left of the scratch disk: for each file its name on the host and
the bytes that are written there, or `none` when the signature is bad. -/
def getFiles : List (List Text) → List UInt8 →
    Except ScratchError (List (Option (Text × List UInt8)))
  | [], _ => .ok []
  | get :: gets, f =>
    if f.take 4 ≠ utf8 ['G', 'E', 'T', '\x00'] then do
      let rest ← getFiles gets (f.drop 4)
      return none :: rest
    else do
      let size ← unpack ((f.drop 4).take 4)
      let f := ((f.drop 4).drop 4).drop 504
      match get[1]? with
      | none => throw .indexError
      | some host =>
        let data := f.take size
        -- the size is rounded up here, but the stream is not moved
        let _size := if size % 512 ≠ 0 then size + (512 - size % 512) else size
        let rest ← getFiles gets (f.drop size)
        return some (host, data) :: rest

/-! ## The format of both ends -/

theorem zeros_eq (n : Nat) : zeros n = List.replicate n 0 := by
  induction n with
  | zero => rfl
  | succ n ih =>
    rw [zeros, replicate_succ, utf8, flatMap_cons, ← utf8, ← zeros, ih]
    rfl

/-- `align` pads to whole sectors. -/
theorem align_eq (data : List UInt8) : align data 512 = padded data := by
  rw [align, padded, dataSectors]
  by_cases hfull : data.length % 512 = 0
  · have hnone : 512 * ((data.length + 511) / 512) - data.length = 0 := by omega
    rw [if_neg (not_not.2 hfull), hnone, replicate_zero, append_nil]
  · have hpad : 512 * ((data.length + 511) / 512) - data.length =
      512 - data.length % 512 := by omega
    rw [if_pos hfull, zeros_eq, hpad]

theorem valueLE_eq {m : Bytes} {a : Nat} {l : List UInt8} (h : Holds m a l) :
    valueLE l = readLE m l.length a := by
  induction l generalizing a with
  | nil => rfl
  | cons b l ih => rw [valueLE, length_cons, readLE, h.1, ih h.2]

theorem valueLE_bytesLE (n v : Nat) : valueLE (bytesLE n v) = v % 256 ^ n := by
  have hholds : Holds (fun j => (bytesLE n v).getD j 0) 0 (bytesLE n v) := by
    rw [holds_iff]
    intro j _
    rw [Nat.zero_add]
  rw [valueLE_eq hholds, length_bytesLE, readLE_of_holds hholds]

/-- The scratch disk that the utility writes is one record after the other. -/
theorem writePuts_eq {hostFns : List HostFile} (h : ∀ file ∈ hostFns, file.data.length < 2 ^ 32) :
    writePuts hostFns = .ok (hostFns.map fun file => file.guest.getD file.host,
      hostFns.flatMap fun file => record putSignature file.data) := by
  induction hostFns with
  | nil => rfl
  | cons file rest ih =>
    obtain ⟨hfile, hrest⟩ := forall_mem_cons.1 h
    have hrecord : utf8 ['P', 'U', 'T', '\x00'] ++ bytesLE 4 file.data.length ++ zeros 504 ++
        align file.data 512 = record putSignature file.data := by
      rw [zeros_eq, align_eq, record, header, append_assoc, append_assoc, append_assoc,
        append_assoc]
      rfl
    rw [writePuts, pack, if_pos hfile, ih hrest, map_cons, flatMap_cons, ← hrecord]
    rfl

/-! ## What `get_files` reads -/

/-- The copies that `get_files` makes from the bytes `f` are `contents`. -/
def Recovers (gets : List (List Text)) (f : List UInt8) (contents : List (List UInt8)) : Prop :=
  ∃ copies, getFiles gets f = .ok copies ∧ copies.map (Option.map Prod.snd) = contents.map some

theorem recovers_nil (f : List UInt8) : Recovers [] f [] := ⟨[], rfl, rfl⟩

variable {gets : List (List Text)} {data : List UInt8} {contents : List (List UInt8)}

/-- A record at the front: the file is copied when the argument names a file on the host, and the
stream stands behind the bytes of the file, before its padding. -/
theorem getFiles_record {get : List Text} {tail : List UInt8} (hlen : data.length < 2 ^ 32) :
    getFiles (get :: gets) (record getSignature data ++ tail) =
      match get[1]? with
      | none => .error .indexError
      | some host => do
        let rest ← getFiles gets
          (List.replicate (512 * dataSectors data.length - data.length) 0 ++ tail)
        return some (host, data) :: rest := by
  have hsplit : record getSignature data ++ tail =
      getSignature ++ (bytesLE 4 data.length ++ (List.replicate 504 0 ++ (data ++
        (List.replicate (512 * dataSectors data.length - data.length) 0 ++ tail)))) := by
    simp only [record, header, padded, append_assoc]
  have hsize : unpack (bytesLE 4 data.length) = .ok data.length := by
    have hsmall : data.length % 256 ^ 4 = data.length := Nat.mod_eq_of_lt (by norm_num; omega)
    rw [unpack, if_pos (length_bytesLE 4 _), valueLE_bytesLE, hsmall]
  have hdrop4 : ∀ l : List UInt8, (getSignature ++ l).drop 4 = l := fun l => drop_left' rfl
  have htake4 : ∀ l : List UInt8, (getSignature ++ l).take 4 = getSignature :=
    fun l => take_left' rfl
  have hdropS : ∀ l : List UInt8, (bytesLE 4 data.length ++ l).drop 4 = l :=
    fun l => drop_left' (length_bytesLE 4 _)
  have htakeS : ∀ l : List UInt8, (bytesLE 4 data.length ++ l).take 4 = bytesLE 4 data.length :=
    fun l => take_left' (length_bytesLE 4 _)
  have hdropZ : ∀ l : List UInt8, (List.replicate 504 0 ++ l).drop 504 = l :=
    fun l => drop_left' length_replicate
  have hsame : utf8 ['G', 'E', 'T', '\x00'] = getSignature := by decide
  rw [hsplit, getFiles, htake4, hsame, if_neg (not_not.2 rfl), hdrop4, htakeS,
    hsize, hdropS, hdropZ]
  cases get[1]? with
  | none => rfl
  | some host =>
    have hcopy : ∀ l : List UInt8, (data ++ l).take data.length = data := fun l => take_left' rfl
    have hnext : ∀ l : List UInt8, (data ++ l).drop data.length = l := fun l => drop_left' rfl
    show (do
      let rest ← getFiles gets ((data ++ _).drop data.length)
      return some (host, (data ++ _).take data.length) :: rest : Except ScratchError _) = _
    rw [hcopy, hnext]

/-- What is recovered from a record at the front. -/
theorem recovers_record_iff {get : List Text} {tail : List UInt8} (hlen : data.length < 2 ^ 32) :
    Recovers (get :: gets) (record getSignature data ++ tail) (data :: contents) ↔
      2 ≤ get.length ∧ Recovers gets
        (List.replicate (512 * dataSectors data.length - data.length) 0 ++ tail) contents := by
  rw [Recovers, getFiles_record hlen]
  cases hhost : get[1]? with
  | none =>
    have hshort := List.getElem?_eq_none_iff.1 hhost
    constructor
    · rintro ⟨copies, hcopies, -⟩
      cases hcopies
    · omega
  | some host =>
    obtain ⟨hlong, -⟩ := List.getElem?_eq_some_iff.1 hhost
    constructor
    · rintro ⟨copies, hcopies, hmap⟩
      refine ⟨hlong, ?_⟩
      cases hrest : getFiles gets
          (List.replicate (512 * dataSectors data.length - data.length) 0 ++ tail) with
      | error e =>
        rw [hrest] at hcopies
        cases hcopies
      | ok rest =>
        rw [hrest] at hcopies
        obtain rfl := Except.ok.inj hcopies
        exact ⟨rest, hrest, (List.cons.inj hmap).2⟩
    · rintro ⟨-, rest, hrest, hmap⟩
      refine ⟨some (host, data) :: rest, ?_, ?_⟩
      · rw [hrest]
        rfl
      · rw [map_cons, map_cons, hmap]
        rfl

/-- A stream that stands before padding has a bad signature, and the next file is not recovered. -/
theorem not_recovers_padding {f : List UInt8} : ¬ Recovers gets (0 :: f) (data :: contents) := by
  rintro ⟨copies, hcopies, hmap⟩
  cases gets with
  | nil =>
    obtain rfl := Except.ok.inj hcopies
    cases hmap
  | cons get gets =>
    have hbad : (0 :: f).take 4 ≠ utf8 ['G', 'E', 'T', '\x00'] := by
      intro h
      have hfirst := (List.cons.inj h).1
      exact absurd hfirst (by decide)
    rw [getFiles, if_pos hbad] at hcopies
    cases hrest : getFiles gets ((0 :: f).drop 4) with
    | error e =>
      rw [hrest] at hcopies
      cases hcopies
    | ok rest =>
      rw [hrest] at hcopies
      obtain rfl := Except.ok.inj hcopies
      cases (List.cons.inj hmap).1

/-- Records one after the other: all of them are recovered exactly when each argument names a file
on the host and there is no padding before a record. -/
theorem recovers_records_iff (tail : List UInt8) (hcount : gets.length = contents.length)
    (hlen : ∀ data ∈ contents, data.length < 2 ^ 32) :
    Recovers gets (contents.flatMap (record getSignature) ++ tail) contents ↔
      (∀ get ∈ gets, 2 ≤ get.length) ∧ ∀ data ∈ contents.dropLast, data.length % 512 = 0 := by
  induction contents generalizing gets with
  | nil =>
    obtain rfl := length_eq_zero_iff.1 hcount
    exact ⟨fun _ => ⟨fun _ h => (by cases h), fun _ h => (by cases h)⟩, fun _ => recovers_nil _⟩
  | cons data contents ih =>
    obtain _ | ⟨get, gets⟩ := gets
    · cases hcount
    obtain ⟨hdata, hrest⟩ := forall_mem_cons.1 hlen
    rw [flatMap_cons, append_assoc, recovers_record_iff hdata, forall_mem_cons, and_assoc]
    refine and_congr_right fun _ => ?_
    -- the padding matters only when another record follows
    cases contents with
    | nil =>
      obtain rfl := length_eq_zero_iff.1 (Nat.succ.inj hcount)
      exact ⟨fun _ => ⟨fun _ h => (by cases h), fun _ h => (by cases h)⟩, fun _ => recovers_nil _⟩
    | cons next contents =>
      rw [dropLast_cons_of_ne_nil (cons_ne_nil _ _), forall_mem_cons]
      by_cases hfull : data.length % 512 = 0
      · have hnone : 512 * dataSectors data.length - data.length = 0 := by
          simp only [dataSectors]
          omega
        rw [hnone, replicate_zero, nil_append, ih (Nat.succ.inj hcount) hrest]
        exact and_congr_right fun _ => (and_iff_right hfull).symm
      · have hsome : 512 * dataSectors data.length - data.length =
            512 * dataSectors data.length - data.length - 1 + 1 := by
          simp only [dataSectors]
          omega
        rw [hsome, replicate_succ, cons_append]
        exact ⟨fun h => absurd h not_recovers_padding, fun h => absurd h.2.1 hfull⟩

/-! ## Copying out -/

section CopyOut

variable {m : Machine} {files : List (CString × List UInt8)}

/-- The sectors that files take on the scratch disk. -/
def scratchSectors (files : List (CString × List UInt8)) : Nat :=
  (files.map fun p => 1 + dataSectors p.2.length).sum

theorem length_records {signature : List UInt8} (hsig : signature.length = 4) :
    (files.flatMap fun p => record signature p.2).length = 512 * scratchSectors files := by
  induction files with
  | nil => rfl
  | cons p files ih =>
    rw [flatMap_cons, length_append, length_record hsig, ih, ← Nat.mul_add, scratchSectors,
      scratchSectors, map_cons, sum_cons]

/-- Consecutive calls of `fsutil_get` write one record after the other. -/
theorem wp_forM_fsutilGet (hinv : Inv m.fs []) (hscratch : m.hasScratch = true)
    (hfiles : ∀ p ∈ files, HasFile m.fs.disk p.1 p.2)
    (hroom : m.getSector + scratchSectors files ≤ m.scratchSize)
    (hlba : m.getSector + scratchSectors files ≤ 2 ^ 28) :
    wp (forM files fun p => fsutilGet p.1) m fun _ t =>
      Fetched m t (files.flatMap fun p => record getSignature p.2) (scratchSectors files) := by
  induction files generalizing m with
  | nil =>
    rw [forM_nil, wp_pure]
    exact Fetched.refl m
  | cons p files ih =>
    obtain ⟨hfile, hrest⟩ := forall_mem_cons.1 hfiles
    have hsum : scratchSectors (p :: files) =
        (1 + dataSectors p.2.length) + scratchSectors files := by
      rw [scratchSectors, map_cons, sum_cons, ← scratchSectors]
    rw [forM_cons, wp_bind]
    refine wp_mono (wp_fsutilGet hinv hscratch hfile (by omega) (by omega)) ?_
    rintro _ t ⟨hinv', hdisk, hfetched⟩
    have hsector := hfetched.sector
    have hsize := hfetched.size
    refine wp_mono (ih (m := t) hinv' (hfetched.present.trans hscratch) ?_ ?_ ?_) ?_
    · intro q hq
      rw [hdisk]
      exact hrest q hq
    · omega
    · omega
    · intro _ u hfetched'
      exact hfetched.trans hfetched' (length_record rfl)

/-- What `get_files` recovers after the records were written from the start of the scratch disk. -/
theorem recovers_fetched_iff {t : Machine} (hstart : m.getSector = 0)
    (hfiles : ∀ p ∈ files, HasFile m.fs.disk p.1 p.2) (hcount : gets.length = files.length)
    (hroom : scratchSectors files ≤ m.scratchSize)
    (hfetched : Fetched m t (files.flatMap fun p => record getSignature p.2)
      (scratchSectors files)) :
    Recovers gets (bytesAt t.scratch 0 (512 * t.scratchSize)) (files.map Prod.snd) ↔
      (∀ get ∈ gets, 2 ≤ get.length) ∧
        ∀ data ∈ (files.map Prod.snd).dropLast, data.length % 512 = 0 := by
  have hholds := hfetched.holds
  rw [hstart, Nat.mul_zero] at hholds
  have hfit : (files.flatMap fun p => record getSignature p.2).length ≤ 512 * t.scratchSize := by
    rw [length_records rfl, hfetched.size]
    omega
  have hflat : (files.flatMap fun p => record getSignature p.2) =
      (files.map Prod.snd).flatMap (record getSignature) := by
    rw [flatMap_map]
  rw [bytesAt_of_holds hholds hfit, hflat]
  apply recovers_records_iff
  · rw [length_map, hcount]
  · intro data hdata
    obtain ⟨p, hp, rfl⟩ := mem_map.1 hdata
    obtain ⟨k, h, hat⟩ := hfiles p hp
    have hlt := headerLength_lt m.fs.disk h
    rw [hat.stored.length] at hlt
    omega

/-- A small file system with a file of `size` bytes and one of one byte, and an empty scratch disk
of four sectors. -/
def Small (size : Nat) (m : Machine) : Prop :=
  Inv m.fs [] ∧ m.hasScratch = true ∧ m.getSector = 0 ∧ m.scratchSize = 4 ∧
    HasFile m.fs.disk nameA (replicate size 0) ∧ HasFile m.fs.disk nameB [0]

theorem exists_small (size : Nat) (hsize : (size : Int) < 2 ^ 31)
    (hrun : (afterCalls []).any (fun s => (filesysCreate nameA size s).toOption.any fun r =>
      r.1 && (filesysCreate nameB 1 r.2).toOption.any fun r => r.1) = true) :
    ∃ m, Small size m := by
  obtain ⟨s, hs, hcreate⟩ := (Option.any_eq_true _ _).1 hrun
  obtain ⟨⟨b, t⟩, hok, hcreate⟩ := exists_ok_of_any hcreate
  obtain ⟨rfl, hcreate⟩ := (Bool.and_eq_true_iff).1 hcreate
  obtain ⟨⟨b, u⟩, hok', rfl⟩ := exists_ok_of_any hcreate
  obtain ⟨ht, hfile, -⟩ := hasFile_created (inv_of_reachable (reachable_afterCalls hs)) hsize hok
  obtain ⟨hu, hfile', hothers⟩ := hasFile_created ht (by norm_num) hok'
  exact ⟨⟨u, true, fun _ => 0, 4, 0, 0⟩, hu, rfl, rfl, rfl, hothers _ _ hfile, hfile'⟩

end CopyOut

/-! ## Copying in -/

section CopyIn

variable {m : Machine} {done files : List (CString × List UInt8)}

/-- Each `filesys_create` of consecutive calls of `fsutil_put` succeeds. -/
def CreatesSucceed : Machine → List (CString × List UInt8) → Prop
  | _, [] => True
  | m, p :: files =>
    (∃ s, filesysCreate p.1 p.2.length m.fs = .ok (true, s)) ∧
      ∀ t, fsutilPut p.1 m = .ok ((), t) → CreatesSucceed t files

theorem CreatesSucceed.take (h : CreatesSucceed m files) (n : Nat) :
    CreatesSucceed m (files.take n) := by
  induction files generalizing m n with
  | nil =>
    rw [take_nil]
    trivial
  | cons p files ih =>
    cases n with
    | zero => trivial
    | succ n => exact ⟨h.1, fun t ht => ih (h.2 t ht) n⟩

/-- Different names are in different entries of the root directory. -/
theorem length_le_rootEntries {d : Bytes} (hdone : ∀ p ∈ done, HasFile d p.1 p.2)
    (hnodup : (done.map Prod.fst).Nodup) : done.length ≤ rootEntries := by
  have hbytes : (done.map fun p => p.1.bytes).Nodup := by
    have hinj : Function.Injective CString.bytes := by
      rintro ⟨a, ha⟩ ⟨b, hb⟩ rfl
      rfl
    have hmap := hnodup.map hinj
    rwa [map_map] at hmap
  have hentries : (done.map fun p => p.1.bytes) ⊆
      (List.range rootEntries).map fun k => entryName (rootSlot d k) := by
    intro bytes hmem
    obtain ⟨p, hp, rfl⟩ := mem_map.1 hmem
    obtain ⟨k, h, hat⟩ := hdone p hp
    exact mem_map.2 ⟨k, mem_range.2 hat.bound.1, hat.entry.2⟩
  have hle := (hbytes.subperm hentries).length_le
  rwa [length_map, length_map, length_range] at hle

/-- Files that are shorter than `2^31` bytes take at most this many sectors. -/
theorem scratchSectors_le (hshort : ∀ p ∈ files, p.2.length < 2 ^ 31) :
    scratchSectors files ≤ files.length * (1 + 2 ^ 22) := by
  induction files with
  | nil => exact Nat.zero_le _
  | cons p files ih =>
    obtain ⟨hp, hrest⟩ := forall_mem_cons.1 hshort
    have hle := ih hrest
    have hsectors : dataSectors p.2.length ≤ 2 ^ 22 := by
      simp only [dataSectors]
      omega
    rw [scratchSectors, map_cons, sum_cons, ← scratchSectors, length_cons, Nat.succ_mul]
    omega

theorem scratchSectors_append (files files' : List (CString × List UInt8)) :
    scratchSectors (files ++ files') = scratchSectors files + scratchSectors files' := by
  rw [scratchSectors, map_append, sum_append, ← scratchSectors, ← scratchSectors]

/-- The machine after the files `done` were put in. -/
structure PutDone (m : Machine) (done : List (CString × List UInt8)) : Prop where
  inv : Inv m.fs []
  present : m.hasScratch = true
  files : ∀ p ∈ done, HasFile m.fs.disk p.1 p.2
  nodup : (done.map Prod.fst).Nodup
  short : ∀ p ∈ done, p.2.length < 2 ^ 31
  sector : m.putSector = scratchSectors done

/-- One more file is put in. -/
theorem PutDone.step {t : Machine} {name : CString} (h : PutDone m done)
    (hlen : data.length < 2 ^ 31) (heffect : PutEffect m.fs t.fs name data)
    (ht : t = { m with fs := t.fs, putSector := m.putSector + (1 + dataSectors data.length) }) :
    PutDone t (done ++ [(name, data)]) where
  inv := heffect.inv
  present := by
    rw [ht]
    exact h.present
  files := by
    intro p hp
    obtain hp | hp := mem_append.1 hp
    · exact heffect.others _ _ (h.files p hp)
    · obtain rfl := mem_singleton.1 hp
      exact heffect.file
  nodup := by
    rw [map_append, map_singleton]
    refine h.nodup.append (nodup_singleton _) ?_
    -- the new name was in no entry, and each earlier name is in one
    rw [disjoint_singleton]
    intro hmem
    obtain ⟨p, hp, rfl⟩ := mem_map.1 hmem
    obtain ⟨k, _, hat⟩ := h.files p hp
    exact heffect.unused k hat.bound.1 hat.entry
  short := forall_mem_append.2 ⟨h.short, forall_mem_singleton.2 hlen⟩
  sector := by
    rw [ht, scratchSectors_append, ← h.sector]
    rfl

/-- Consecutive calls of `fsutil_put` take one record after the other. -/
theorem wp_forM_fsutilPut (hdone : PutDone m done) (hshort : ∀ p ∈ files, p.2.length < 2 ^ 31)
    (hholds : Holds m.scratch (sectorSize * m.putSector)
      (files.flatMap fun p => record putSignature p.2))
    (hroom : m.putSector + scratchSectors files ≤ m.scratchSize)
    (hcreate : CreatesSucceed m files) :
    wp (forM files fun p => fsutilPut p.1) m fun _ t => PutDone t (done ++ files) := by
  induction files generalizing m done with
  | nil =>
    rw [forM_nil, wp_pure, append_nil]
    exact hdone
  | cons p files ih =>
    obtain ⟨hp, hrest⟩ := forall_mem_cons.1 hshort
    have hsum : scratchSectors (p :: files) =
        (1 + dataSectors p.2.length) + scratchSectors files := by
      rw [scratchSectors, map_cons, sum_cons, ← scratchSectors]
    rw [flatMap_cons, holds_append, length_record rfl] at hholds
    -- there are at most sixteen files, so the position is far from the limit of `disk_read`
    have hcount := length_le_rootEntries hdone.files hdone.nodup
    have hpos : m.putSector ≤ rootEntries * (1 + 2 ^ 22) := by
      rw [hdone.sector]
      exact (scratchSectors_le hdone.short).trans (Nat.mul_le_mul_right _ hcount)
    have hlba : m.putSector + (1 + dataSectors p.2.length) ≤ 2 ^ 28 := by
      simp only [rootEntries] at hpos
      simp only [dataSectors]
      omega
    rw [forM_cons, wp_bind]
    have hput := wp_fsutilPut hdone.inv hdone.present hp hholds.1 (by omega) hlba hcreate.1
    obtain ⟨⟨⟩, t, hrun, heffect, ht⟩ := hput
    refine ⟨(), t, hrun, ?_⟩
    have hsector : t.putSector = m.putSector + (1 + dataSectors p.2.length) := by rw [ht]
    have hscratch : t.scratch = m.scratch := by rw [ht]
    have hsize : t.scratchSize = m.scratchSize := by rw [ht]
    have hnext := ih (hdone.step hp heffect ht) hrest ?_ ?_ (hcreate.2 t hrun)
    · rwa [append_assoc] at hnext
    · rw [hsector, hscratch, Nat.mul_add]
      exact hholds.2
    · omega

/-- The kernel has booted with the image as its scratch disk. -/
structure BootedWith (m : Machine) (image : List UInt8) : Prop where
  inv : Inv m.fs []
  present : m.hasScratch = true
  start : m.putSector = 0
  bytes : Holds m.scratch 0 image
  size : 512 * m.scratchSize = image.length

/-- The names and the contents, as `fsutil_put` gets them. -/
def namedFiles (names : List CString) (hostFns : List HostFile) : List (CString × List UInt8) :=
  names.zip (hostFns.map HostFile.data)

/-- **Copying in.** The image of `__prepare_scratch_files` is taken by consecutive calls of
`fsutil_put`: after each of them the position is behind the files so far, and each of these has its
name and its bytes. -/
theorem put_roundTrip {hostFns : List HostFile} {names : List CString} (guestFns : List (List Text))
    (hshort : ∀ file ∈ hostFns, file.data.length < 2 ^ 31)
    (hnames : names.map CString.bytes = hostFns.map fun file => utf8 (file.guest.getD file.host)) :
    ∃ image, prepareScratchFiles hostFns guestFns =
        .ok (hostFns.map fun file => file.guest.getD file.host, guestFns, image) ∧
      ∀ m, BootedWith m image → CreatesSucceed m (namedFiles names hostFns) →
        ∀ n, wp (forM ((namedFiles names hostFns).take n) fun p => fsutilPut p.1) m fun _ t =>
          t.putSector = scratchSectors ((namedFiles names hostFns).take n) ∧
            ∀ p ∈ (namedFiles names hostFns).take n, FileIs t.fs p.1 p.2 := by
  have hlength : names.length = (hostFns.map HostFile.data).length := by
    have hcount := congrArg List.length hnames
    rw [length_map, length_map] at hcount
    rw [length_map, hcount]
  have hsnd : (namedFiles names hostFns).map Prod.snd = hostFns.map HostFile.data :=
    map_snd_zip hlength.ge
  have hrecords : (hostFns.flatMap fun file => record putSignature file.data) =
      (namedFiles names hostFns).flatMap fun p => record putSignature p.2 := by
    rw [← flatMap_map (f := HostFile.data), ← hsnd, flatMap_map]
  refine ⟨(hostFns.flatMap fun file => record putSignature file.data) ++
    guestFns.flatMap fun _ => zeros 0x100000, ?_, ?_⟩
  · rw [prepareScratchFiles, writePuts_eq fun file hfile => (hshort file hfile).trans (by norm_num)]
    rfl
  intro m hm hcreate n
  have hfiles : ∀ p ∈ namedFiles names hostFns, p.2.length < 2 ^ 31 := by
    intro p hp
    have hmem := mem_map_of_mem (f := Prod.snd) hp
    rw [hsnd] at hmem
    obtain ⟨file, hfile, hdata⟩ := mem_map.1 hmem
    rw [← hdata]
    exact hshort file hfile
  -- the records of the first `n` files are the beginning of the image
  have hsplit : (namedFiles names hostFns) =
      (namedFiles names hostFns).take n ++ (namedFiles names hostFns).drop n :=
    (take_append_drop n _).symm
  have hbytes := hm.bytes
  have hsize := hm.size
  rw [hrecords, length_append, length_records rfl, hsplit, scratchSectors_append] at hsize
  rw [hrecords, hsplit, flatMap_append, append_assoc, holds_append] at hbytes
  have hstart : PutDone m [] :=
    ⟨hm.inv, hm.present, fun _ h => (by cases h), nodup_nil, fun _ h => (by cases h), hm.start⟩
  refine wp_mono (wp_forM_fsutilPut hstart (fun p hp => hfiles p (mem_of_mem_take hp)) ?_ ?_
    (hcreate.take n)) ?_
  · rw [hm.start]
    exact hbytes.1
  · rw [hm.start]
    omega
  · intro _ t ht
    exact ⟨ht.sector, fun p hp => fileIs_of_hasFile ht.inv (ht.files p hp)⟩

/-- The machine with the small disk and a scratch disk with this image. -/
def withImage (s : Fs) (image : List UInt8) : Machine :=
  ⟨s, true, fun j => image.getD j 0, image.length / 512, 0, 0⟩

/-- The records of two files of one byte. -/
def twoRecords : List UInt8 := record putSignature [7] ++ record putSignature [8]

/-- Two files of one byte are put in. -/
theorem put_roundTrip_two : ∃ m,
    prepareScratchFiles [⟨['a'], none, [7]⟩, ⟨['b'], none, [8]⟩] [] =
      .ok ([['a'], ['b']], [], twoRecords) ∧ BootedWith m twoRecords ∧
    wp (forM [(nameA, [7]), (nameB, [8])] fun p => fsutilPut p.1) m fun _ t =>
      t.putSector = 4 ∧ ∀ p ∈ [(nameA, [7]), (nameB, [8])], FileIs t.fs p.1 p.2 := by
  have hshort : ∀ file ∈ ([⟨['a'], none, [7]⟩, ⟨['b'], none, [8]⟩] : List HostFile),
      file.data.length < 2 ^ 31 := forall_mem_cons.2 ⟨by decide, forall_mem_singleton.2 (by decide)⟩
  obtain ⟨image, himage, hput⟩ := @put_roundTrip _ [nameA, nameB] [] hshort (by decide)
  obtain rfl : image = twoRecords := by
    rw [prepareScratchFiles, writePuts_eq fun file hf => (hshort file hf).trans (by norm_num)]
      at himage
    have hbytes := congrArg (fun r => r.2.2) (Except.ok.inj himage)
    simpa [twoRecords] using hbytes.symm
  have hlength : twoRecords.length = 2048 := by
    rw [twoRecords, length_append, length_record rfl, length_record rfl]
    rfl
  have hrun : (afterCalls []).any (fun s => (filesysCreate nameA 1 s).toOption.any (fun r => r.1) &&
      (fsutilPut nameA (withImage s twoRecords)).toOption.any fun r =>
        (filesysCreate nameB 1 r.2.fs).toOption.any fun r => r.1) = true := by
    decide +kernel
  obtain ⟨s, hs, hruns⟩ := (Option.any_eq_true _ _).1 hrun
  obtain ⟨hfirst, hsecond⟩ := (Bool.and_eq_true_iff).1 hruns
  obtain ⟨⟨b, s'⟩, hcreate, rfl⟩ := exists_ok_of_any hfirst
  obtain ⟨⟨⟨⟩, t⟩, hrun, hsecond⟩ := exists_ok_of_any hsecond
  obtain ⟨⟨b, s''⟩, hcreate', rfl⟩ := exists_ok_of_any hsecond
  have hm : BootedWith (withImage s twoRecords) twoRecords := by
    refine ⟨inv_of_reachable (reachable_afterCalls hs), rfl, rfl, ?_, ?_⟩
    · rw [holds_iff]
      intro j _
      rw [Nat.zero_add, withImage]
    · show 512 * (twoRecords.length / 512) = _
      rw [hlength]
  refine ⟨withImage s twoRecords, himage, hm, hput _ hm ⟨⟨s', hcreate⟩, fun u hu => ?_⟩ 2⟩
  cases hrun.symm.trans hu
  exact ⟨⟨s'', hcreate'⟩, fun _ _ => trivial⟩

end CopyIn

end Pintos.Utils.ScratchDisk
