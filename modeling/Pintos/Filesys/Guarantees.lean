import Pintos.Filesys.Sequences
import Pintos.Filesys.NamedFiles

/-!
# Guarantees of the file system

What holds in every state that calls lead to from a formatted disk: who owns which sector and that a
write touches nobody else's bytes, what a failed creation leaves behind, and how the deletion of an
open file is put off to its last `file_close`; and what reads and later boots find.
-/

set_option autoImplicit false

namespace Pintos.Filesys.Guarantees

open Lib.Runs Lib.KeyedList Lib.StateExcept Lib.ByteMemory
open LibKernel Filesys.State InodeIo
open Inode Filesys.File Directory Operations
open Layout Invariant Calls
open FileCalls FileHandles Create Filesys.Format
open Sequences NamedFiles

variable {s t : Fs} {f g : File} {i j : Inode} {calls : List Call} {c : Call}

/-! ## Reading and writing the bytes of an inode -/

/-- The bytes of an inode, by their offset. -/
def content (s : Fs) (i : Inode) (k : Nat) : UInt8 := s.disk (sectorSize * i.start + k)

/-- The bytes of an open inode lie in its data sectors. -/
theorem content_of_agree (hs : Inv s []) (hi : i ∈ s.openInodes)
    (ha : AgreeOn s.disk t.disk (extent s.disk i.sector)) {k : Nat} (hk : (k : Int) < i.length) :
    content t i k = content s i k := by
  obtain ⟨hstart, hlength⟩ := hs.data i hi
  have hle := le_bytesToSectors (headerLength_lt s.disk i.sector)
  rw [← hlength] at hle
  rw [content, content, hstart]
  apply AgreeOn.data ha
  rw [← hlength]
  omega

/-- `file_read` returns the bytes of the inode from the position on. -/
theorem fileRead_content (hs : Inv s []) (hf : f ∈ s.files) (hi : i ∈ s.openInodes)
    (hptr : i.ptr = f.inode) (buffer : Nat → UInt8) (size : Int) :
    fileRead f.ptr buffer size s = .ok ((transferCnt i size f.pos,
      patch buffer 0 (transferCnt i size f.pos) fun k => content s i (f.pos.toNat + k)),
      advanced s f (transferCnt i size f.pos)) := by
  obtain ⟨r, u, hrun, rfl, rfl⟩ := (wp_fileRead hs hf hi hptr buffer size
    fun r u => r = _ ∧ u = _).2 ⟨rfl, rfl⟩
  rw [hrun]
  simp only [dataAddr, content, Nat.add_assoc]

/-- A transfer stays below the length of the inode. -/
theorem transfer_lt {size : Int} {pos : Int} (hpos : 0 ≤ pos) {k : Nat}
    (hk : k < transferCnt i size pos) : ((pos.toNat + k : Nat) : Int) < i.length := by
  simp only [transferCnt] at hk
  omega

/-- What is read does not change while the bytes of the inode do not. -/
theorem fileRead_congr (hs : Inv s []) (ht : Inv t []) (hf : f ∈ s.files) (hf' : f ∈ t.files)
    (hi : i ∈ s.openInodes) (hi' : i ∈ t.openInodes) (hptr : i.ptr = f.inode)
    (ha : AgreeOn s.disk t.disk (extent s.disk i.sector)) {buffer : Nat → UInt8} {size : Int}
    {r : Nat × (Nat → UInt8)} {u : Fs} (hrun : fileRead f.ptr buffer size s = .ok (r, u)) :
    ∃ u', fileRead f.ptr buffer size t = .ok (r, u') := by
  rw [fileRead_content hs hf hi hptr] at hrun
  rw [fileRead_content ht hf' hi' hptr]
  have hbytes : patch buffer 0 (transferCnt i size f.pos) (fun k => content t i (f.pos.toNat + k)) =
      patch buffer 0 (transferCnt i size f.pos) fun k => content s i (f.pos.toNat + k) := by
    apply patch_congr
    intro k hk
    exact content_of_agree hs hi ha (transfer_lt (hs.heap.pos_nonneg f hf) hk)
  rw [hbytes]
  obtain rfl := congrArg Prod.fst (Except.ok.inj hrun)
  exact ⟨_, rfl⟩

/-! ## A small disk -/

/-- A disk of sixteen cleared sectors when the kernel boots. -/
def smallDisk : Fs where
  disk := fun _ => 0
  capacity := 16
  freeMap := Bitmap.create 0 fun _ => 0
  freeMapFile := none
  openInodes := []
  files := []
  nextPtr := 0
  failures := []

theorem booted_smallDisk : Booted smallDisk := ⟨rfl, by decide, rfl, rfl⟩

/-- The state after the small disk is formatted and calls are made. -/
def afterCalls (calls : List Call) : Option Fs :=
  (filesysInit true (fun _ => 0) smallDisk).toOption.bind fun p => run step p.2 calls

theorem reachable_afterCalls (h : afterCalls calls = some s) : Reachable s := by
  obtain ⟨⟨⟨⟩, s1⟩, hinit, hrun⟩ := Option.bind_eq_some_iff.1 h
  exact ⟨smallDisk, fun _ => 0, s1, calls, booted_smallDisk, eq_ok_of_toOption hinit, hrun⟩

/-- A call that succeeds after these calls. -/
theorem exists_call {α : Type} (calls : List Call) (x : FsM α) (p : Fs → α × Fs → Bool)
    (h : (afterCalls calls).any (fun s => (x s).toOption.any (p s)) = true) :
    ∃ s r, Reachable s ∧ x s = .ok r ∧ p s r = true := by
  obtain ⟨s, hs, hx⟩ := (Option.any_eq_true _ _).1 h
  obtain ⟨r, hr, hp⟩ := exists_ok_of_any hx
  exact ⟨s, r, reachable_afterCalls hs, hr, hp⟩

/-- The file name `a`. -/
def nameA : CString := ⟨[97], by decide⟩

/-! ## Sectors and isolation -/

/-- What a change may not touch when it comes from a `file_write` through the file `f`. -/
structure Isolated (s t : Fs) (f : File) : Prop where
  reads : ∀ g ∈ s.files, g.inode ≠ f.inode → ∀ buffer size r u,
    fileRead g.ptr buffer size s = .ok (r, u) → ∃ u', fileRead g.ptr buffer size t = .ok (r, u')
  sectors : ∀ i ∈ s.openInodes, i.ptr = f.inode → ∀ h, LiveIn s h → h ≠ i.sector →
    AgreeOn s.disk t.disk (owned s.disk h)
  entries : ∀ k < rootEntries, ∀ j < entrySize, rootSlot t.disk k j = rootSlot s.disk k j
  freeMap : t.freeMap = s.freeMap
  mapFile : ∀ k < byteCnt s.capacity, mapBytes t.disk k = mapBytes s.disk k

/-- The frame of a write: only the data of the inode of the file changes, and the position. -/
theorem isolated_of_agree (hs : Inv s []) (ht : Inv t []) (hf : f ∈ s.files)
    (hmap : s.freeMapFile ≠ some f.ptr) (hi : i ∈ s.openInodes) (hptr : i.ptr = f.inode)
    (ha : AgreeOn s.disk t.disk (extent s.disk i.sector)ᶜ) (hinodes : t.openInodes = s.openInodes)
    (hfiles : ∀ g ∈ s.files, g.ptr ≠ f.ptr → g ∈ t.files) (hfreeMap : t.freeMap = s.freeMap) :
    Isolated s t f := by
  obtain ⟨i', hi', hptr', hsector, hroot⟩ := inode_of_user hs hf hmap
  obtain rfl := hs.heap.eq_of_ptr hi' hi (hptr'.trans hptr.symm)
  have hother : ∀ h, LiveIn s h → h ≠ i'.sector → AgreeOn s.disk t.disk (owned s.disk h) := by
    intro h hh hne
    apply ha.mono
    intro x hx hmem
    exact Set.disjoint_left.1 (hs.disk.disjoint _ _ hh (live_of_open hi) hne) hx
      (extent_subset hmem)
  have hsame := hs.disk.sameLayout_of_data (live_of_open hi) hroot ha
  constructor
  case reads =>
    intro g hg hne buffer size r u hrun
    obtain ⟨j, hj, hjptr, -⟩ := hs.heap.file_inode hg
    have hjne : j.sector ≠ i'.sector := by
      intro e
      obtain rfl := hs.heap.uniqueSector.eq_of_key hj hi e
      exact hne (hjptr.symm.trans hptr)
    have hg' : g ∈ t.files := by
      apply hfiles g hg
      intro e
      obtain rfl := hs.heap.uniqueFile.eq_of_key hg hf e
      exact hne rfl
    exact fileRead_congr hs ht hg hg' hj (hinodes ▸ hj) hjptr
      ((hother _ (live_of_open hj) hjne).mono extent_subset) hrun
  case sectors =>
    intro j hj hjptr h hh hne
    obtain rfl := hs.heap.eq_of_ptr hj hi (hjptr.trans hptr.symm)
    exact hother h hh hne
  case entries => exact hsame.slot
  case freeMap => exact hfreeMap
  case mapFile =>
    intro k hk
    rw [mapBytes, mapBytes, hsame.start _ live_map]
    exact AgreeOn.data ((hother _ live_map hsector.symm).mono extent_subset)
      (lt_of_lt_of_le hk hs.mapBytes_le)

/-- The files other than `f` are as before once `f` has moved on. -/
theorem mem_advanced (hs : Inv s []) (hf : f ∈ s.files) (n : Nat) (hg : g ∈ s.files)
    (hne : g.ptr ≠ f.ptr) : g ∈ (advanced s f n).files :=
  (hs.heap.mem_updateFile hf _).2 (Or.inr ⟨hg, hne⟩)

theorem wp_write_isolated (hs : Inv s []) (hf : f ∈ s.files) (hmap : s.freeMapFile ≠ some f.ptr)
    (buffer : Nat → UInt8) (size : Int) :
    wp (fileWrite f.ptr buffer size) s fun _ t => Isolated s t f := by
  obtain ⟨i, hi, hptr, -, -⟩ := inode_of_user hs hf hmap
  by_cases hdeny : i.denyWriteCnt = 0
  · rw [wp_fileWrite hs hf hi hptr hdeny]
    have hs1 := inv_written hs hf hmap hi hptr buffer size
    exact isolated_of_agree hs (inv_advanced hs1 hf hmap _) hf hmap hi hptr
      (written_agree hs hf hi buffer size) rfl (fun g hg hne => mem_advanced hs1 hf _ hg hne) rfl
  · rw [wp_fileWrite_denied hs hf hi hptr hdeny]
    exact isolated_of_agree hs (inv_advanced hs hf hmap _) hf hmap hi hptr (fun _ _ _ _ => rfl) rfl
      (fun g hg hne => mem_advanced hs hf _ hg hne) rfl

/-- **Ownership of sectors.** In every state that calls lead to, the live inodes own disjoint sets
of sectors, inside the disk and marked in the free map; so a `file_write` through one file leaves
alone what other files read, the root directory and the free map. -/
theorem sector_ownership (hs : Reachable s) :
    (∀ h, LiveIn s h → h ∉ extent s.disk h ∧
      ∀ x ∈ owned s.disk h, x < s.capacity ∧ s.freeMap.test x = true) ∧
    (∀ h h', LiveIn s h → LiveIn s h' → h ≠ h' → Disjoint (owned s.disk h) (owned s.disk h')) ∧
    ∀ f ∈ s.files, s.freeMapFile ≠ some f.ptr → ∀ buffer size n t,
      fileWrite f.ptr buffer size s = .ok (n, t) → Isolated s t f := by
  have hinv := inv_of_reachable hs
  refine ⟨?_, hinv.disk.disjoint, ?_⟩
  · intro h hh
    have hp := hinv.disk.placed h hh
    exact ⟨hp.apart, fun x hx => ⟨(hp.used hx).1, (hp.used hx).2.2⟩⟩
  · intro f hf hmap buffer size n t hrun
    exact wlp_of_wp (wp_write_isolated hinv hf hmap buffer size) n t hrun

theorem sector_ownership_small : ∃ s f, Reachable s ∧ f ∈ s.files ∧ s.freeMapFile ≠ some f.ptr ∧
    ∀ buffer size n t, fileWrite f.ptr buffer size s = .ok (n, t) → Isolated s t f := by
  have hrun : (afterCalls [.create nameA 1000, .openFile nameA]).any
      (fun s => s.files.any fun f => s.freeMapFile ≠ some f.ptr) = true := by decide +kernel
  obtain ⟨s, hs, hfile⟩ := (Option.any_eq_true _ _).1 hrun
  obtain ⟨f, hf, hmap⟩ := List.any_eq_true.1 hfile
  have hmap' := of_decide_eq_true hmap
  exact ⟨s, f, reachable_afterCalls hs, hf, hmap',
    (sector_ownership (reachable_afterCalls hs)).2.2 f hf hmap'⟩

/-! ## Failed creation -/

/-- **A failed creation.** When `filesys_create` returns false, the entries of the root directory
and the open inodes are as before; the free map is as before exactly if the file was to be empty or
there was no room for it. In all other failures the data sectors that were taken for the file stay
marked. -/
theorem create_failed (hs : Reachable s) {name : CString} {size : Int} (hsize : size < 2 ^ 31)
    (hrun : filesysCreate name size s = .ok (false, t)) :
    (∀ k < rootEntries, ∀ j < entrySize, rootSlot t.disk k j = rootSlot s.disk k j) ∧
    t.openInodes = s.openInodes ∧
    ((∀ x, t.freeMap.test x = s.freeMap.test x) ↔ size = 0 ∨ NoRoom s.freeMap size) := by
  obtain ⟨-, he⟩ := wlp_filesysCreate (inv_of_reachable hs) hsize name false t hrun
  exact ⟨he.slots rfl, he.untouched.inodes, he.restored rfl⟩

/-- The second creation of one file on the small disk. -/
theorem second_create : ∃ s t, Reachable s ∧ filesysCreate nameA 1000 s = .ok (false, t) ∧
    s.freeMap.test 8 = false ∧ t.freeMap.test 8 = true := by
  obtain ⟨s, ⟨b, t⟩, hs, hrun, hp⟩ := exists_call [.create nameA 1000] (filesysCreate nameA 1000)
    (fun s r => r.1 = false ∧ s.freeMap.test 8 = false ∧ r.2.freeMap.test 8 = true)
    (by decide +kernel)
  obtain ⟨rfl, hbefore, hafter⟩ := of_decide_eq_true hp
  exact ⟨s, t, hs, hrun, hbefore, hafter⟩

theorem create_failed_small : ∃ s t, Reachable s ∧ filesysCreate nameA 1000 s = .ok (false, t) ∧
    ((∀ x, t.freeMap.test x = s.freeMap.test x) ↔ (1000 : Int) = 0 ∨ NoRoom s.freeMap 1000) := by
  obtain ⟨s, t, hs, hrun, -, -⟩ := second_create
  exact ⟨s, t, hs, hrun, (create_failed hs (by norm_num) hrun).2.2⟩

/-- Creating a file of one thousand bytes a second time fails, and two more sectors stay marked. -/
theorem create_twice_leaks : ∃ s t, Reachable s ∧ filesysCreate nameA 1000 s = .ok (false, t) ∧
    ¬ ∀ x, t.freeMap.test x = s.freeMap.test x := by
  obtain ⟨s, t, hs, hrun, hbefore, hafter⟩ := second_create
  refine ⟨s, t, hs, hrun, ?_⟩
  intro hsame
  rw [hsame 8, hbefore] at hafter
  exact Bool.false_ne_true hafter

/-! ## Sharing and deferred deletion -/

/-- The call is a `file_write` through a file on the inode with this pointer. -/
def writesInode (s : Fs) (inode : Nat) : Call → Bool
  | .write file _ _ => s.files.any fun f => f.ptr = file && f.inode = inode
  | _ => false

/-- The steps that are no write to the inode with this pointer. -/
def stepBeside (inode : Nat) (s : Fs) (c : Call) : Option Fs :=
  if writesInode s inode c then none else step s c

theorem stepBeside_iff {inode : Nat} :
    stepBeside inode s c = some t ↔ writesInode s inode c = false ∧ step s c = some t := by
  unfold stepBeside
  cases writesInode s inode c with
  | true => simp
  | false => simp

theorem not_writes (hs : Inv s []) (hi : i ∈ s.openInodes) (hc : writesInode s i.ptr c = false) :
    ¬ Writes s c i.sector := by
  cases c with
  | write file buffer size =>
    rintro ⟨f, hf, hptr, j, hj, hjptr, hsector⟩
    obtain rfl := hs.heap.uniqueSector.eq_of_key hj hi hsector
    have hnot := List.any_eq_false.1 hc f hf
    simp [hptr, hjptr] at hnot
  | _ => exact id

/-- The pointer of an inode is never used again. -/
theorem keepsInodes_run (hs : Inv s []) (hrun : run step s calls = some t) :
    Inv t [] ∧ KeepsInodes s t := by
  induction calls generalizing s with
  | nil =>
    cases hrun
    exact ⟨hs, keepsInodes_of_eq rfl rfl⟩
  | cons c calls ih =>
    obtain ⟨u, hst, htu⟩ := run_cons_iff.1 hrun
    have he := step_effect hs hst
    obtain ⟨ht, hkeeps⟩ := ih he.inv htu
    exact ⟨ht, he.keeps.trans hkeeps⟩

theorem run_of_beside {inode : Nat} (hrun : run (stepBeside inode) s calls = some t) :
    run step s calls = some t := by
  induction calls generalizing s with
  | nil => exact hrun
  | cons c calls ih =>
    obtain ⟨u, hst, htu⟩ := run_cons_iff.1 hrun
    exact run_cons_iff.2 ⟨u, (stepBeside_iff.1 hst).2, ih htu⟩

/-- An inode keeps its place and its bytes while it is open and nobody writes it. -/
theorem content_run (hs : Inv s []) (hi : i ∈ s.openInodes) (hmap : i.sector ≠ freeMapSector)
    (hroot : i.sector ≠ rootDirSector) (hrun : run (stepBeside i.ptr) s calls = some t)
    (hj : j ∈ t.openInodes) (hptr : i.ptr = j.ptr) :
    SameInode i j ∧ AgreeOn s.disk t.disk (owned s.disk i.sector) := by
  induction calls generalizing s i with
  | nil =>
    cases hrun
    obtain rfl := hs.heap.eq_of_ptr hi hj hptr
    exact ⟨.refl i, fun _ _ _ _ => rfl⟩
  | cons c calls ih =>
    obtain ⟨u, hst, htu⟩ := run_cons_iff.1 hrun
    obtain ⟨hquiet, hstep⟩ := stepBeside_iff.1 hst
    have he := step_effect hs hstep
    -- the inode was open all the time, since pointers are not used again
    have hlt : j.ptr < u.nextPtr := by
      rw [← hptr]
      exact lt_of_lt_of_le (hs.heap.inode_lt i hi) he.keeps.next
    obtain ⟨i1, hi1, hsame1⟩ := (keepsInodes_run he.inv (run_of_beside htu)).2.inode j hj hlt
    have hi1lt : i1.ptr < s.nextPtr := by
      rw [hsame1.ptr, ← hptr]
      exact hs.heap.inode_lt i hi
    obtain ⟨i', hi', hsame⟩ := he.keeps.inode i1 hi1 hi1lt
    obtain rfl := hs.heap.eq_of_ptr hi' hi (hsame.ptr.trans (hsame1.ptr.trans hptr.symm))
    obtain ⟨hsame2, hagree2⟩ := ih he.inv hi1 (hsame.sector ▸ hmap) (hsame.sector ▸ hroot)
      (hsame.ptr ▸ htu) hsame1.ptr
    have hagree := he.data _ (live_of_open hi) hmap hroot (not_writes hs hi hquiet)
    have howned : owned u.disk i1.sector = owned s.disk i'.sector := by
      obtain ⟨h1, h2⟩ := header_congr fun k hk => hagree _ mem_owned k hk
      rw [← hsame.sector, owned, owned, extent, extent, h1, h2]
    rw [howned] at hagree2
    exact ⟨hsame.trans hsame2, fun x hx k hk => (hagree2 x hx k hk).trans (hagree x hx k hk)⟩

/-- A file can be read and, unless writes are denied, written. -/
structure Usable (s : Fs) (f : File) (i : Inode) : Prop where
  read : ∀ buffer size, ∃ t, fileRead f.ptr buffer size s = .ok ((transferCnt i size f.pos,
    patch buffer 0 (transferCnt i size f.pos) fun k => content s i (f.pos.toNat + k)), t)
  write : i.denyWriteCnt = 0 → ∀ buffer size, ∃ t,
    fileWrite f.ptr buffer size s = .ok (transferCnt i size f.pos, t) ∧
      ∀ k, content t i k =
        if f.pos.toNat ≤ k ∧ k < f.pos.toNat + transferCnt i size f.pos then
          buffer (k - f.pos.toNat)
        else content s i k

theorem usable (hs : Inv s []) (hf : f ∈ s.files) (hi : i ∈ s.openInodes) (hptr : i.ptr = f.inode) :
    Usable s f i where
  read := fun buffer size => ⟨_, fileRead_content hs hf hi hptr buffer size⟩
  write := by
    intro hdeny buffer size
    obtain ⟨n, t, hrun, rfl, rfl⟩ := (wp_fileWrite hs hf hi hptr hdeny buffer size
      fun n t => n = _ ∧ t = _).2 ⟨rfl, rfl⟩
    refine ⟨_, hrun, ?_⟩
    intro k
    show patch s.disk (dataAddr i f.pos) (transferCnt i size f.pos) buffer
      (sectorSize * i.start + k) = _
    by_cases hin : f.pos.toNat ≤ k ∧ k < f.pos.toNat + transferCnt i size f.pos
    · have hofs : sectorSize * i.start + k - (sectorSize * i.start + f.pos.toNat) =
          k - f.pos.toNat := by
        omega
      rw [if_pos hin, dataAddr, patch_inside (by omega) (by omega), hofs]
    · rw [if_neg hin, dataAddr, patch_outside (by omega)]
      rfl

/-- The inodes are shared by sector and counted, and a removed file lives until its last handle. -/
structure DeferredDeletion (s : Fs) : Prop where
  /-- At most one inode for a sector. -/
  shared : (s.openInodes.map Inode.sector).Nodup
  /-- `open_cnt` counts the handles. -/
  counted : ∀ i ∈ s.openInodes,
    i.openCnt = (s.files.countP (fun f => f.inode = i.ptr) : Nat) ∧ 1 ≤ i.openCnt
  /-- Every handle can be used, also on a removed file. -/
  usable : ∀ f ∈ s.files, ∃ i ∈ s.openInodes, i.ptr = f.inode ∧ Usable s f i
  /-- The content stays while nobody writes it, whatever else is called. -/
  content : ∀ i ∈ s.openInodes, i.sector ≠ freeMapSector → ∀ calls t,
    run (stepBeside i.ptr) s calls = some t → ∀ j ∈ t.openInodes, j.ptr = i.ptr →
      SameInode i j ∧ ∀ k : Nat, (k : Int) < i.length → content t j k = content s i k
  /-- The sectors of an open inode are in use. -/
  kept : ∀ i ∈ s.openInodes, ∀ x ∈ owned s.disk i.sector, s.freeMap.test x = true
  /-- The close of the last handle of a removed file frees its sectors. -/
  freed : ∀ f ∈ s.files, ∀ i ∈ s.openInodes, i.ptr = f.inode → i.openCnt = 1 → i.removed = true →
    ∃ t, step s (.close f.ptr) = some t ∧ ∀ x ∈ owned s.disk i.sector, t.freeMap.test x = false
  /-- The removal of a file that nobody has open frees its sectors. -/
  freedNow : ∀ name k h, EntryFor (rootSlot s.disk k) name → Bound s.disk k h → h ∉ openSectors s →
    ∃ t, step s (.remove name) = some t ∧ ∀ x ∈ owned s.disk h, t.freeMap.test x = false
  /-- No other call frees a sector. -/
  only : ∀ c t x, step s c = some t → s.freeMap.test x = true → t.freeMap.test x = false →
    (∃ f ∈ s.files, ∃ i ∈ s.openInodes, c = .close f.ptr ∧ i.ptr = f.inode ∧ i.openCnt = 1 ∧
      i.removed = true ∧ x ∈ owned s.disk i.sector) ∨
    ∃ name k h, c = .remove name ∧ EntryFor (rootSlot s.disk k) name ∧ Bound s.disk k h ∧
      h ∉ openSectors s ∧ x ∈ owned s.disk h
  /-- After its last handle is closed an inode is gone for good. -/
  once : ∀ f ∈ s.files, s.freeMapFile ≠ some f.ptr → ∀ i ∈ s.openInodes, i.ptr = f.inode →
    i.openCnt = 1 → ∃ t, step s (.close f.ptr) = some t ∧ ∀ calls u, run step t calls = some u →
      ∀ j ∈ u.openInodes, j.ptr ≠ i.ptr

/-- `file_close` returns. -/
theorem exists_close (hs : Inv s []) (hf : f ∈ s.files) (hmap : s.freeMapFile ≠ some f.ptr)
    (hi : i ∈ s.openInodes) (hptr : i.ptr = f.inode) : ∃ t, step s (.close f.ptr) = some t := by
  obtain ⟨⟨⟩, t, hrun, -⟩ := wp_fileClose hs hf hmap hi hptr
  exact ⟨t, step_iff.2 ⟨⟨⟨f, hf, rfl⟩, hmap⟩, hrun⟩⟩

/-- `filesys_remove` returns. -/
theorem exists_remove (hs : Inv s []) (name : CString) : ∃ t, step s (.remove name) = some t := by
  have hexec : wp (exec (.remove name)) s fun _ _ => True :=
    (wp_map ..).2 (wp_mono (wp_filesysRemove hs name) fun _ _ _ => trivial)
  obtain ⟨⟨⟩, t, hrun, -⟩ := hexec
  exact ⟨t, step_iff.2 ⟨trivial, hrun⟩⟩

/-- The free map file is not removed. -/
theorem not_map_of_removed (hs : Inv s []) (hf : f ∈ s.files) (hi : i ∈ s.openInodes)
    (hptr : i.ptr = f.inode) (hremoved : i.removed = true) : s.freeMapFile ≠ some f.ptr := by
  intro hmap
  obtain ⟨g, hfile, hm⟩ := hs.heap.mapFile
  obtain ⟨j, hj, hjptr, -, hkept⟩ := hm.inode
  obtain rfl := hs.heap.uniqueFile.eq_of_key hf hm.mem (Option.some.inj (hmap.symm.trans hfile))
  obtain rfl := hs.heap.eq_of_ptr hi hj (hptr.trans hjptr.symm)
  rw [hkept] at hremoved
  cases hremoved

/-- A mark that a call clears belongs to a file whose last handle is closed, or which nobody has
open. -/
theorem freed_only (hs : Inv s []) (h : step s c = some t) {x : Nat} (hx : s.freeMap.test x = true)
    (hx' : t.freeMap.test x = false) :
    (∃ f ∈ s.files, ∃ i ∈ s.openInodes, c = .close f.ptr ∧ i.ptr = f.inode ∧ i.openCnt = 1 ∧
      i.removed = true ∧ x ∈ owned s.disk i.sector) ∨
    ∃ name k h, c = .remove name ∧ EntryFor (rootSlot s.disk k) name ∧ Bound s.disk k h ∧
      h ∉ openSectors s ∧ x ∈ owned s.disk h := by
  have hmap := (step_effect hs h).map
  have hkept : ¬ t.freeMap = s.freeMap := by
    intro e
    rw [e, hx] at hx'
    cases hx'
  cases c with
  | create name size =>
    have hmark := hmap x hx
    rw [hx'] at hmark
    cases hmark
  | remove name =>
    right
    have hentry : ∃ k < rootEntries, EntryFor (rootSlot s.disk k) name := by
      by_contra hnone
      apply hkept
      apply hmap.1
      intro k hk hfor
      exact hnone ⟨k, hk, hfor⟩
    obtain ⟨k, hk, hfor⟩ := hentry
    have hb : Bound s.disk k (entrySector (rootSlot s.disk k)) := ⟨hk, hfor.1, rfl⟩
    obtain ⟨hopen, hclosed⟩ := hmap.2 k _ hfor hb
    have hnot : entrySector (rootSlot s.disk k) ∉ openSectors s := fun hmem => hkept (hopen hmem).1
    refine ⟨name, k, _, rfl, hfor, hb, hnot, ?_⟩
    by_contra hout
    rw [((hclosed hnot).2 x).2 ⟨hx, hout⟩] at hx'
    cases hx'
  | close file =>
    left
    obtain ⟨f, hf, rfl, -, i, hi, hptr⟩ := file_of_user hs (step_iff.1 h).1
    have he := hmap f hf rfl i hi hptr
    have hlast : i.openCnt = 1 ∧ i.removed = true := by
      by_contra hne
      apply hkept
      apply he.kept
      by_cases hcnt : i.openCnt = 1
      · right
        cases hremoved : i.removed with
        | false => rfl
        | true => exact absurd ⟨hcnt, hremoved⟩ hne
      · exact Or.inl hcnt
    refine ⟨f, hf, i, hi, rfl, hptr, hlast.1, hlast.2, ?_⟩
    by_contra hout
    rw [(he.freed hlast.1 hlast.2 x).2 ⟨hx, hout⟩] at hx'
    cases hx'
  | _ => exact absurd hmap hkept

/-- **Written bytes are read back.** What `file_write` stored through `f` is what every file on the
same inode reads at that place, after any calls that do not write the inode. -/
theorem written_bytes_read (hs : Reachable s) (hf : f ∈ s.files) (hmap : s.freeMapFile ≠ some f.ptr)
    {buffer : Nat → UInt8} {size : Int} {n : Nat}
    (hwrite : fileWrite f.ptr buffer size s = .ok (n, t))
    {u : Fs} (hrun : run (stepBeside f.inode) t calls = some u) (hg : g ∈ u.files)
    (hshare : g.inode = f.inode) (block : Nat → UInt8) (want : Int) :
    ∃ r u', fileRead g.ptr block want u = .ok (r, u') ∧ ∀ k < n, ∀ m : Nat,
      f.pos + k = g.pos + m → m < want → m < r.1 ∧ r.2 m = buffer k := by
  have hinv := inv_of_reachable hs
  obtain ⟨i, hi, hptr, hsector, hroot⟩ := inode_of_user hinv hf hmap
  have hpos := hinv.heap.pos_nonneg f hf
  have hstored : wp (fileWrite f.ptr buffer size) s fun n t => Inv t [] ∧ i ∈ t.openInodes ∧
      ∀ k < n, ((f.pos.toNat + k : Nat) : Int) < i.length ∧
        content t i (f.pos.toNat + k) = buffer k := by
    by_cases hdeny : i.denyWriteCnt = 0
    · rw [wp_fileWrite hinv hf hi hptr hdeny]
      refine ⟨inv_advanced (inv_written hinv hf hmap hi hptr buffer size) hf hmap _, hi, ?_⟩
      intro k hk
      refine ⟨transfer_lt hpos hk, ?_⟩
      show patch s.disk (dataAddr i f.pos) _ buffer (sectorSize * i.start + (f.pos.toNat + k)) = _
      rw [← Nat.add_assoc, dataAddr, patch_inside (Nat.le_add_right ..) (by omega),
        Nat.add_sub_cancel_left]
    · rw [wp_fileWrite_denied hinv hf hi hptr hdeny]
      exact ⟨inv_advanced hinv hf hmap _, hi, fun k hk => absurd hk (Nat.not_lt_zero k)⟩
  obtain ⟨ht, hit, hbytes⟩ := wlp_of_wp hstored n t hwrite
  -- the inode of `g` is the one that was written, and nobody has written it since
  obtain ⟨hu, -⟩ := keepsInodes_run ht (run_of_beside hrun)
  obtain ⟨j, hj, hjptr, -⟩ := hu.heap.file_inode hg
  obtain ⟨hsame, hagree⟩ := content_run ht hit hsector hroot (hptr ▸ hrun) hj
    (hptr.trans (hshare.symm.trans hjptr.symm))
  refine ⟨_, _, fileRead_content hu hg hj hjptr block want, ?_⟩
  intro k hk m hkm hm
  obtain ⟨hlt, hbyte⟩ := hbytes k hk
  have hpos' := hu.heap.pos_nonneg g hg
  have hin : m < transferCnt j want g.pos := by
    rw [transferCnt, ← hsame.length]
    omega
  have hplace : g.pos.toNat + m = f.pos.toNat + k := by omega
  refine ⟨hin, ?_⟩
  dsimp only
  rw [patch_inside (Nat.zero_le m) (by omega), Nat.sub_zero, hplace, ← hbyte,
    ← content_of_agree ht hit (hagree.mono extent_subset) hlt, content, content, hsame.start]

theorem written_bytes_read_small : ∃ s t r u, Reachable s ∧
    fileWrite 9 (fun k => UInt8.ofNat k) 10 s = .ok (10, t) ∧
    fileRead 7 (fun _ => 0) 10 t = .ok (r, u) ∧ r.2 3 = 3 := by
  obtain ⟨s, ⟨n, t⟩, hs, hwrite, hp⟩ := exists_call
    [.create nameA 1000, .openFile nameA, .openFile nameA] (fileWrite 9 (fun k => UInt8.ofNat k) 10)
    (fun s r => r.1 = 10 ∧ s.freeMapFile ≠ some 9 ∧
      (∃ f ∈ s.files, f.ptr = 9 ∧ f.inode = 6 ∧ f.pos = 0) ∧
      ∃ g ∈ r.2.files, g.ptr = 7 ∧ g.inode = 6 ∧ g.pos = 0) (by decide +kernel)
  obtain ⟨rfl, hmap, ⟨⟨_, _, _, _⟩, hf, rfl, rfl, rfl⟩, ⟨_, _, _, _⟩, hg, rfl, rfl, rfl⟩ :=
    of_decide_eq_true hp
  obtain ⟨r, u, hread, hbytes⟩ :=
    written_bytes_read hs hf hmap hwrite (run_nil t) hg rfl (fun _ => 0) 10
  exact ⟨s, t, r, u, hs, hwrite, hread, (hbytes 3 (by decide) 3 rfl (by decide)).2⟩

/-- A new file is on the disk with its zeros, and the other files as before. -/
theorem hasFile_created (hs : Inv s []) {name : CString} {size : Int} (hsize : size < 2 ^ 31)
    (hrun : filesysCreate name size s = .ok (true, t)) :
    Inv t [] ∧ HasFile t.disk name (List.replicate size.toNat 0) ∧
      ∀ other data, HasFile s.disk other data → HasFile t.disk other data := by
  obtain ⟨h, hnew, hzero⟩ := wlp_filesysCreate_file hs hsize true t hrun rfl
  obtain ⟨k, hb, hfor⟩ := hnew.named
  refine ⟨hnew.inv, ⟨k, h, hb, hfor, hzero⟩, ?_⟩
  rintro other data ⟨k', g, hat⟩
  obtain ⟨-, hslot, hold⟩ := hnew.others k' g hat.bound
  exact ⟨k', g, hat.congr hslot hold⟩

/-- **New files are cleared.** When `filesys_create` succeeds, opening the name and reading the file
gives `size` zeros, whatever the disk held before, and the other files have the bytes they had. -/
theorem new_file_zeros (hs : Reachable s) {name : CString} {size : Int} (hsize : size < 2 ^ 31)
    (hrun : filesysCreate name size s = .ok (true, t)) :
    FileIs t name (List.replicate size.toNat 0) ∧
      ∀ other data, HasFile s.disk other data → FileIs t other data := by
  obtain ⟨ht, hnew, hothers⟩ := hasFile_created (inv_of_reachable hs) hsize hrun
  exact ⟨fileIs_of_hasFile ht hnew, fun other data h => fileIs_of_hasFile ht (hothers other data h)⟩

theorem new_file_zeros_small : ∃ s t, Reachable s ∧ filesysCreate nameA 1000 s = .ok (true, t) ∧
    FileIs t nameA (List.replicate 1000 0) := by
  obtain ⟨s, ⟨b, t⟩, hs, hrun, rfl⟩ := exists_call [] (filesysCreate nameA 1000)
    (fun _ r => r.1) (by decide +kernel)
  exact ⟨s, t, hs, hrun, (new_file_zeros hs (by norm_num) hrun).1⟩

/-! ## Restarts -/

/-- `filesys_done` leaves the disk as it is. -/
theorem wp_filesysDone (hs : Inv s []) : wp filesysDone s fun _ t => t.disk = s.disk := by
  obtain ⟨f, hfile, hm⟩ := hs.heap.mapFile
  obtain ⟨i, hi, hptr, -, hkept⟩ := hm.inode
  have hlookup := hs.heap.lookup_inode hi
  rw [filesysDone, wp_freeMapClose_iff hfile (hs.heap.lookup_file hm.mem) hm.allows, ← hptr]
  by_cases hcnt : i.openCnt = 1
  · rw [wp_inodeClose_last hlookup hcnt, hkept]
    exact ⟨fun _ => rfl, fun h => absurd h Bool.false_ne_true⟩
  · rw [wp_inodeClose_shared hlookup hcnt]
    rfl

/-- **The free map persists.** In every state that calls lead to, reading the free map file gives
the free map. After `filesys_done` and a boot, `filesys_init` without formatting restores the free
map, and the disk, with the root directory, is as before. -/
theorem free_map_persists (hs : Reachable s) :
    (∀ x < s.freeMap.bitCnt, (s.freeMap.ofBytes (mapBytes s.disk)).test x = s.freeMap.test x) ∧
    wp filesysDone s fun _ t => ∀ b junk, Booted b → b.disk = t.disk → b.capacity = s.capacity →
      wp (filesysInit false junk) b fun _ u => u.freeMap.bitCnt = s.freeMap.bitCnt ∧
        (∀ x < s.freeMap.bitCnt, u.freeMap.test x = s.freeMap.test x) ∧ u.disk = s.disk := by
  have hinv := inv_of_reachable hs
  have hstored := hinv.mapStored
  rw [← hinv.mapBits] at hstored
  refine ⟨hstored, wp_mono (wp_filesysDone hinv) ?_⟩
  intro _ t ht b junk hb hdisk hcap
  apply wp_mono (wp_filesysInit_again hinv hb (hdisk.trans ht) hcap junk)
  rintro _ u ⟨-, hsame, hmap⟩
  rw [hmap]
  exact ⟨rfl, hstored, hsame⟩

theorem free_map_persists_small : ∃ s, Reachable s ∧ wp filesysDone s fun _ t =>
    wp (filesysInit false fun _ => 0)
      { smallDisk with disk := t.disk, capacity := s.capacity } fun _ u =>
      ∀ x < s.freeMap.bitCnt, u.freeMap.test x = s.freeMap.test x := by
  obtain ⟨s, t, hs, -⟩ := second_create
  refine ⟨s, hs, wp_mono (free_map_persists hs).2 ?_⟩
  intro _ t h
  exact wp_mono (h _ _ ⟨rfl, (inv_of_reachable hs).capacity, rfl, rfl⟩ rfl rfl) fun _ _ hu => hu.2.1

/-- **Files survive a restart.** Wherever the kernel stops between two calls, after the next boot
all files on the disk can be opened and have their bytes, and all calls from then on keep the state
consistent. -/
theorem files_survive_restart (hs : Reachable s) {b : Fs} (hb : Booted b) (hdisk : b.disk = s.disk)
    (hcap : b.capacity = s.capacity) (junk : Nat → BitVec 64) :
    wp (filesysInit false junk) b fun _ t =>
      (∀ name data, HasFile s.disk name data → FileIs t name data) ∧
      ∀ calls u, run step t calls = some u → Inv u [] := by
  apply wp_mono (wp_filesysInit_again (inv_of_reachable hs) hb hdisk hcap junk)
  rintro _ t ⟨ht, hsame, -⟩
  refine ⟨?_, fun calls u hrun => (keepsInodes_run ht hrun).1⟩
  rw [← hsame]
  exact fun name data hfile => fileIs_of_hasFile ht hfile

theorem files_survive_restart_small : ∃ s b, Reachable s ∧
    wp (filesysInit false fun _ => 0) b fun _ t =>
    ∀ name data, HasFile s.disk name data → FileIs t name data := by
  obtain ⟨s, t, hs, -⟩ := second_create
  have hb : Booted { smallDisk with disk := s.disk, capacity := s.capacity } :=
    ⟨rfl, (inv_of_reachable hs).capacity, rfl, rfl⟩
  refine ⟨s, _, hs, wp_mono (files_survive_restart hs hb rfl rfl _) ?_⟩
  exact fun _ _ ht => ht.1

end Pintos.Filesys.Guarantees
