import Pintos.Filesys.File

/-!
# Directories

`filesys/directory.c`: a directory is a file of entries of 20 bytes. `lookup` and the search for a
free slot in `dir_add` are one loop over the entries, with different tests.
-/

set_option autoImplicit false

namespace Pintos.Filesys.Directory

open Lib Lib.StateExcept Lib.ByteMemory Filesys.State InodeIo List
open Inode

/-- A string without a zero byte, as C strings are. -/
structure CString where
  bytes : List UInt8
  nonzero : 0 ∉ bytes

/-- `NAME_MAX`. -/
def nameMax : Nat := 14

/-- `sizeof (struct dir_entry)`. -/
def entrySize : Nat := 20

/-- The member `inode_sector` of a `struct dir_entry`. -/
def entrySector (e : Nat → UInt8) : Nat := readLE e 4 0

/-- The string in the member `name`, which has room for `NAME_MAX + 1` bytes. -/
def entryName (e : Nat → UInt8) : List UInt8 :=
  ((List.range (nameMax + 1)).map fun i => e (4 + i)).takeWhile (· ≠ 0)

/-- The member `in_use`. -/
def entryInUse (e : Nat → UInt8) : Bool := e 19 ≠ 0

/-- `struct dir`. -/
structure Dir where
  inode : Nat
  pos : Int

/-- `dir_open`, which takes over the reference to the inode. -/
def dirOpen (inode : Option Nat) : FsM (Option Dir) := do
  let allocated ← malloc
  match inode, allocated with
  | some inode, true => return some ⟨inode, 0⟩
  | inode, _ =>
    inodeClose inode
    return none

/-- `dir_open_root`. -/
def dirOpenRoot : FsM (Option Dir) := do
  dirOpen (← inodeOpen rootDirSector)

/-- `dir_close`. -/
def dirClose (dir : Option Dir) : FsM Unit := do
  match dir with
  | none => return
  | some dir => inodeClose (some dir.inode)

/-- The loop over the entries from `ofs` on that `lookup` and `dir_add` share: whether an entry that
passes the test is met before the first short read, the offset, and the buffer. -/
def scanEntries (dir : Dir) (test : (Nat → UInt8) → Bool) :
    Nat → Nat → (Nat → UInt8) → FsM (Bool × Nat × (Nat → UInt8))
  | 0, ofs, e => return (false, ofs, e)
  | fuel + 1, ofs, e => do
    let (n, e) ← inodeReadAt dir.inode e entrySize ofs
    if n = entrySize then
      if test e then
        return (true, ofs, e)
      else
        scanEntries dir test fuel (ofs + entrySize) e
    else
      return (false, ofs, e)

/-- The loop from the first entry on. It stops at the end of the directory at the latest. -/
def scanDir (dir : Dir) (test : (Nat → UInt8) → Bool) : FsM (Bool × Nat × (Nat → UInt8)) := do
  let i ← derefInode dir.inode
  scanEntries dir test (i.length.toNat / entrySize + 1) 0 fun _ => 0

/-- The check of `lookup`. -/
def isFor (name : CString) (e : Nat → UInt8) : Bool := entryInUse e && name.bytes = entryName e

/-- `lookup`: the entry for the name and its offset. -/
def lookup (dir : Dir) (name : CString) : FsM (Option ((Nat → UInt8) × Nat)) := do
  let (found, ofs, e) ← scanDir dir (isFor name)
  return if found then some (e, ofs) else none

/-- `dir_lookup`: an inode for the file, `none` for the null pointer. -/
def dirLookup (dir : Dir) (name : CString) : FsM (Option Nat) := do
  match ← lookup dir name with
  | some (e, _) => inodeOpen (entrySector e)
  | none => return none

/-- The entry that `dir_add` writes over the bytes `e`. -/
def newEntry (e : Nat → UInt8) (name : CString) (inodeSector : Nat) : Nat → UInt8 :=
  let e := patch e 19 1 fun _ => 1
  let e := patch e 4 (name.bytes.length + 1) fun i => (name.bytes ++ [0]).getD i 0
  writeLE e 4 0 inodeSector

/-- `dir_add`. -/
def dirAdd (dir : Dir) (name : CString) (inodeSector : Nat) : FsM Bool := do
  if name.bytes = [] ∨ nameMax < name.bytes.length then
    return false
  else
    match ← lookup dir name with
    | some _ => return false
    | none =>
      let (_, ofs, e) ← scanDir dir fun e => !entryInUse e
      let written ← inodeWriteAt dir.inode (newEntry e name inodeSector) entrySize ofs
      return written = entrySize

/-- The entry that `dir_remove` writes. -/
def freedEntry (e : Nat → UInt8) : Nat → UInt8 := patch e 19 1 fun _ => 0

/-- `dir_remove`. -/
def dirRemove (dir : Dir) (name : CString) : FsM Bool := do
  match ← lookup dir name with
  | none => return false
  | some (e, ofs) =>
    match ← inodeOpen (entrySector e) with
    | none => return false
    | some inode =>
      let written ← inodeWriteAt dir.inode (freedEntry e) entrySize ofs
      if written = entrySize then
        inodeRemove inode
        inodeClose (some inode)
        return true
      else
        inodeClose (some inode)
        return false

/-! ## Entries -/

section Entries

variable {e e' : Nat → UInt8} {name : CString} {sector : Nat}

section

variable (h : ∀ j < entrySize, e' j = e j)
include h

theorem entrySector_congr : entrySector e' = entrySector e := by
  apply readLE_congr
  intro j hj
  apply h
  simp only [entrySize]
  omega

theorem entryName_congr : entryName e' = entryName e := by
  have hbytes : ((List.range (nameMax + 1)).map fun i => e' (4 + i)) =
      (List.range (nameMax + 1)).map fun i => e (4 + i) := by
    apply map_congr_left
    intro j hj
    have hj' := mem_range.1 hj
    apply h
    simp only [entrySize, nameMax] at hj' ⊢
    omega
  rw [entryName, entryName, hbytes]

theorem entryInUse_congr : entryInUse e' = entryInUse e := by
  rw [entryInUse, entryInUse, h 19 (by decide)]

theorem newEntry_congr {j : Nat} (hj : j < entrySize) :
    newEntry e' name sector j = newEntry e name sector j := by
  simp only [newEntry, writeLE, patch, h j hj]

end

theorem entrySector_newEntry (h : sector < 2 ^ 32) :
    entrySector (newEntry e name sector) = sector := by
  rw [entrySector, newEntry, readLE_writeLE]
  exact Nat.mod_eq_of_lt h

theorem entryInUse_newEntry (h : name.bytes.length ≤ nameMax) :
    entryInUse (newEntry e name sector) = true := by
  simp only [nameMax] at h
  have hbyte : newEntry e name sector 19 = 1 := by
    rw [newEntry, writeLE, patch_outside (by omega), patch_outside (by omega),
      patch_inside (by omega) (by omega)]
  rw [entryInUse, hbyte]
  rfl

/-- The name is read back up to its terminator, whatever the old bytes after it are. -/
theorem entryName_newEntry (h : name.bytes.length ≤ nameMax) :
    entryName (newEntry e name sector) = name.bytes := by
  have hbyte : ∀ i < name.bytes.length + 1,
      newEntry e name sector (4 + i) = (name.bytes ++ [0]).getD i 0 := by
    intro i hi
    rw [newEntry, writeLE, patch_outside (by omega), patch_inside (by omega) (by omega)]
    congr 1
    omega
  have hname : (List.range (name.bytes.length + 1)).map (fun i => newEntry e name sector (4 + i)) =
      name.bytes ++ [0] := by
    apply ext_getElem
    · simp
    · intro i hi hi'
      rw [getElem_map, getElem_range, hbyte i (by simpa using hi),
        getD_eq_getElem?_getD, List.getElem?_eq_getElem hi', Option.getD_some]
  have hsplit : nameMax + 1 = (name.bytes.length + 1) + (nameMax - name.bytes.length) := by omega
  rw [entryName, hsplit, range_add, map_append, hname, append_assoc,
    takeWhile_append_of_pos]
  · simp
  · intro b hb
    have hne : b ≠ 0 := fun e => name.nonzero (e ▸ hb)
    simpa using hne

theorem entryInUse_freedEntry : entryInUse (freedEntry e) = false := by
  rfl

end Entries

/-! ## Searching the entries -/

/-- The bytes of an entry of the directory whose data starts at a sector. -/
def slot (disk : Bytes) (start k : Nat) : Nat → UInt8 :=
  fun j => disk (sectorSize * start + entrySize * k + j)

section Search

variable {s : Fs} {i : Inode} {dir : Dir} {n b k m : Nat} {e : Nat → UInt8}
  {test : (Nat → UInt8) → Bool} {Q : Bool × Nat × (Nat → UInt8) → Fs → Prop} {name : CString}

/-- The inode of the directory is open with `n` entries, whatever allocations are to fail. -/
structure OpenDir (s : Fs) (dir : Dir) (i : Inode) (n : Nat) : Prop where
  opened : KeyedList.lookup Inode.ptr s.openInodes dir.inode = some i
  length : i.length = (entrySize * n : Nat)
  onDisk : DataOnDisk s i

/-- The inode of the directory is open with `n` entries that can be read. -/
structure DirFile (s : Fs) (dir : Dir) (i : Inode) (n : Nat) : Prop extends OpenDir s dir i n where
  failures : s.failures = []

/-- Whether allocation `j` from now on fails. -/
def failsAt (s : Fs) (j : Nat) : Bool := s.failures.getD j false

/-- The state after `j` allocations. -/
def skip (s : Fs) (j : Nat) : Fs := { s with failures := s.failures.drop j }

/-- The loop over the entries, which takes an allocation for each from allocation `b` on, goes on
after the first `c`: they can be read, and none passes the test. -/
def GoesOn (s : Fs) (i : Inode) (test : (Nat → UInt8) → Bool) (b c : Nat) : Prop :=
  ∀ k < c, failsAt s (b + k) = false ∧ test (slot s.disk i.start k) = false

theorem allocFails_skip (s : Fs) (j : Nat) : (skip s j).allocFails = failsAt s j := by
  simp [Fs.allocFails, skip, failsAt, headD_eq_head?_getD, getD_eq_getElem?_getD]

theorem afterAlloc_skip (s : Fs) (j : Nat) : (skip s j).afterAlloc = skip s (j + 1) := by
  rw [Fs.afterAlloc, skip, skip, tail_drop]

theorem GoesOn.succ (h : GoesOn s i test b k) (hfails : failsAt s (b + k) = false)
    (htest : test (slot s.disk i.start k) = false) : GoesOn s i test b (k + 1) := by
  intro j hj
  rcases Nat.lt_succ_iff_lt_or_eq.1 hj with hlt | rfl
  · exact h j hlt
  · exact ⟨hfails, htest⟩

/-- The loop does not go on after an entry that cannot be read or passes the test. -/
theorem GoesOn.le (h : GoesOn s i test b m)
    (hstop : failsAt s (b + k) = true ∨ test (slot s.disk i.start k) = true) : m ≤ k := by
  refine not_lt.1 fun hlt => ?_
  obtain ⟨hfails, htest⟩ := h k hlt
  rw [hfails, htest] at hstop
  simp at hstop

theorem OpenDir.skip (hd : OpenDir s dir i n) (j : Nat) : OpenDir (skip s j) dir i n :=
  ⟨hd.opened, hd.length, hd.onDisk.congr rfl⟩

theorem OpenDir.entry_lt (hd : OpenDir s dir i n) (hk : k < n) :
    ((entrySize * k : Nat) : Int) < i.length ∧
      transferCnt i entrySize (entrySize * k : Nat) = entrySize := by
  have hlen := hd.length
  simp only [transferCnt, entrySize] at hlen ⊢
  omega

/-- Reading an entry, or nothing when the bounce buffer cannot be allocated. -/
theorem wp_readEntry (hd : OpenDir s dir i n) (hk : k < n)
    {Q : Nat × (Nat → UInt8) → Fs → Prop} (hfails : s.allocFails = true → Q (0, e) s.afterAlloc)
    (hread : s.allocFails = false → ∀ e', (∀ j < entrySize, e' j = slot s.disk i.start k j) →
      Q (entrySize, e') s.afterAlloc) :
    wp (inodeReadAt dir.inode e entrySize (entrySize * k : Nat)) s Q := by
  obtain ⟨hlt, hcnt⟩ := hd.entry_lt hk
  rw [wp_inodeReadAt_small hd.opened hd.onDisk (Int.natCast_nonneg _) hlt (by decide)
    (by decide), hcnt]
  cases halloc : s.allocFails with
  | true => exact hfails halloc
  | false =>
    apply hread halloc
    intro j hj
    rw [patch_inside (Nat.zero_le j) (by omega), Nat.sub_zero, slot, dataAddr, Int.toNat_natCast]

section

variable (htest : ∀ e e', (∀ j < entrySize, e' j = e j) → test e' = test e) (hd : OpenDir s dir i n)
  (hend : GoesOn s i test b n → ∀ e', Q (false, entrySize * n, e') (skip s (b + n)))
  (hstop : ∀ c < n, GoesOn s i test b c →
    failsAt s (b + c) = true ∨ test (slot s.disk i.start c) = true → ∀ e',
    (failsAt s (b + c) = false → ∀ j < entrySize, e' j = slot s.disk i.start c j) →
    Q (!failsAt s (b + c), entrySize * c, e') (skip s (b + c + 1)))
include htest hd hend hstop

/-- The loop from entry `k` on, with `m` to come, stops at the first entry that cannot be read or
passes the test. -/
theorem wp_scanEntries {fuel : Nat} (hn : k + m = n) (hfuel : m < fuel) (hk : GoesOn s i test b k) :
    wp (scanEntries dir test fuel (entrySize * k) e) (skip s (b + k)) Q := by
  have hshort : ¬ 0 = entrySize := by decide
  induction m generalizing k fuel e with
  | zero =>
    obtain ⟨fuel, rfl⟩ := Nat.exists_eq_succ_of_ne_zero hfuel.ne'
    obtain rfl : k = n := hn
    rw [scanEntries, wp_bind, wp_inodeReadAt_end (hd.skip _).opened (Int.natCast_nonneg _)
      (Or.inr hd.length.le)]
    dsimp only
    rw [if_neg hshort, wp_pure]
    exact hend hk e
  | succ m ih =>
    obtain ⟨fuel, rfl⟩ := Nat.exists_eq_succ_of_ne_zero (Nat.ne_zero_of_lt hfuel)
    have hlt : k < n := by omega
    rw [scanEntries, wp_bind]
    apply wp_readEntry (hd.skip _) hlt
    · -- no bounce buffer: the loop takes this for the end of the directory
      rw [allocFails_skip, afterAlloc_skip]
      intro hfails
      dsimp only
      rw [if_neg hshort, wp_pure]
      have hq := hstop k hlt hk (Or.inl hfails) e
      rw [hfails] at hq
      exact hq fun h => absurd h.symm Bool.false_ne_true
    · rw [allocFails_skip, afterAlloc_skip]
      intro hfails e' he'
      dsimp only
      rw [if_pos rfl, htest _ _ he']
      show wp (ite (test (slot s.disk i.start k) = true) _ _) _ _
      cases htk : test (slot s.disk i.start k) with
      | true =>
        rw [if_pos rfl, wp_pure]
        have hq := hstop k hlt hk (Or.inr htk) e' fun _ => he'
        rwa [hfails] at hq
      | false =>
        rw [if_neg Bool.false_ne_true]
        exact ih (k := k + 1) (by omega) (by omega) (hk.succ hfails htk)

/-- The loop over the whole directory, from allocation `b` on. -/
theorem wp_scanDir : wp (scanDir dir test) (skip s b) Q := by
  have hfuel : i.length.toNat / entrySize = n := by
    rw [hd.length, Int.toNat_natCast, Nat.mul_div_cancel_left n (by decide)]
  rw [scanDir, wp_bind, wp_derefInode (hd.skip b).opened, hfuel]
  exact wp_scanEntries (k := 0) htest hd hend hstop (Nat.zero_add n) (Nat.lt_succ_self n)
    fun j hj => absurd hj (Nat.not_lt_zero j)

end

/-- The entry is in use for the name. -/
def EntryFor (e : Nat → UInt8) (name : CString) : Prop :=
  entryInUse e = true ∧ entryName e = name.bytes

theorem isFor_iff {e : Nat → UInt8} : isFor name e = true ↔ EntryFor e name := by
  rw [isFor, Bool.and_eq_true, decide_eq_true_eq, EntryFor, @eq_comm _ name.bytes]

theorem isFor_eq_false {e : Nat → UInt8} : isFor name e = false ↔ ¬ EntryFor e name := by
  rw [← isFor_iff, Bool.not_eq_true]

theorem isFor_congr (e e' : Nat → UInt8) (h : ∀ j < entrySize, e' j = e j) :
    isFor name e' = isFor name e := by
  rw [isFor, isFor, entryInUse_congr h, entryName_congr h]

theorem DirFile.skip_eq (hd : DirFile s dir i n) (j : Nat) : skip s j = s := by
  rw [skip, hd.failures, drop_nil, ← hd.failures]

theorem DirFile.failsAt_eq (hd : DirFile s dir i n) (j : Nat) : failsAt s j = false := by
  rw [failsAt, hd.failures]
  rfl

/-- `lookup` finds an entry in use for the name if there is one, and changes nothing. -/
theorem wp_lookup (hd : DirFile s dir i n) {Q : Option ((Nat → UInt8) × Nat) → Fs → Prop}
    (hfound : ∀ m e, m < n → EntryFor (slot s.disk i.start m) name →
      (∀ j < entrySize, e j = slot s.disk i.start m j) → Q (some (e, entrySize * m)) s)
    (hnone : (∀ m < n, ¬ EntryFor (slot s.disk i.start m) name) → Q none s) :
    wp (lookup dir name) s Q := by
  rw [lookup, wp_bind, ← hd.skip_eq 0]
  apply wp_scanDir isFor_congr hd.toOpenDir
  · intro hall e
    rw [wp_pure, if_neg Bool.false_ne_true, hd.skip_eq]
    exact hnone fun m hm => isFor_eq_false.1 (hall m hm).2
  · intro m hm _ hfor e he
    rw [hd.failsAt_eq] at hfor he ⊢
    rw [wp_pure, hd.skip_eq]
    exact hfound m e hm (isFor_iff.1 (hfor.resolve_left Bool.false_ne_true)) (he rfl)

/-- **Adding an entry.** `dir_add` fails without effect when the name is not valid or taken or the
directory full, and otherwise writes the first free entry. -/
theorem wp_dirAdd {sector : Nat} (hd : DirFile s dir i n) (hdeny : i.denyWriteCnt = 0)
    {Q : Bool → Fs → Prop} (hfail : (name.bytes = [] ∨ nameMax < name.bytes.length ∨
      (∃ m < n, EntryFor (slot s.disk i.start m) name) ∨
      ∀ m < n, entryInUse (slot s.disk i.start m) = true) → Q false s)
    (hadd : ∀ m < n, name.bytes ≠ [] → name.bytes.length ≤ nameMax →
      (∀ j < n, ¬ EntryFor (slot s.disk i.start j) name) →
      entryInUse (slot s.disk i.start m) = false →
      Q true (s.patchDisk (sectorSize * i.start + entrySize * m) entrySize
        (newEntry (slot s.disk i.start m) name sector))) :
    wp (dirAdd dir name sector) s Q := by
  rw [dirAdd, wp_ite]
  constructor
  · intro hinvalid
    rw [wp_pure]
    apply hfail
    rcases hinvalid with h | h
    · exact .inl h
    · exact .inr (.inl h)
  · intro hvalid
    rw [not_or, not_lt] at hvalid
    rw [wp_bind]
    apply wp_lookup hd
    · intro m e hm hfor _
      rw [wp_pure]
      exact hfail (.inr (.inr (.inl ⟨m, hm, hfor⟩)))
    · intro hunbound
      rw [wp_bind, ← hd.skip_eq 0]
      apply wp_scanDir (fun e e' h => by rw [entryInUse_congr h]) hd.toOpenDir
      rotate_left
      · intro m hm _ hfree e he
        rw [hd.failsAt_eq] at hfree he
        replace he := he rfl
        rw [hd.skip_eq, wp_bind, wp_inodeWriteAt hd.failures hd.opened hd.onDisk
          (Int.natCast_nonneg _) hdeny, (hd.entry_lt hm).2, wp_pure]
        have hpatch := patch_congr (m := s.disk) (a := dataAddr i (entrySize * m : Nat))
          (g := newEntry (slot s.disk i.start m) name sector) fun j hj => newEntry_congr he hj
        have hq := hadd m hm hvalid.1 hvalid.2 hunbound (by simpa using hfree)
        simp only [decide_true, Fs.patchDisk, hpatch]
        exact hq
      · intro hall e
        have hcnt : transferCnt i entrySize (entrySize * n : Nat) = 0 := by
          apply transferCnt_eq_zero
          right
          rw [hd.length]
        rw [hd.skip_eq, wp_bind, wp_inodeWriteAt hd.failures hd.opened hd.onDisk
          (Int.natCast_nonneg _) hdeny, hcnt, wp_pure, Fs.patchDisk_zero]
        have hfull : ∀ m < n, entryInUse (slot s.disk i.start m) = true := by
          intro m hm
          simpa using (hall m hm).2
        exact hfail (.inr (.inr (.inr hfull)))

end Search

end Pintos.Filesys.Directory
