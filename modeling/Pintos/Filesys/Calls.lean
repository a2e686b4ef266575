import Pintos.Filesys.Invariant

/-!
# Opening and closing inodes

`inode_open` and `inode_close` from a consistent state: what state they lead to, and that it is
consistent with the reference gained or given up. The closing of a removed inode by its last opener
is where sectors return to the free map.
-/

set_option autoImplicit false

namespace Pintos.Filesys.Calls

open Lib.KeyedList Lib.StateExcept Lib.ByteMemory LibKernel
open Filesys.State FreeMap Inode
open Directory Layout Invariant

variable {s : Fs} {held : List Nat} {i i0 : Inode} {h : Nat} {j : Inode} {m : Bitmap} {t : Fs}

/-! ## Opening -/

/-- What `inode_open` does while allocation succeeds: the pointer, and the state after it. -/
def opened (s : Fs) (h : Nat) : Nat × Fs :=
  match lookup Inode.sector s.openInodes h with
  | some i => (i.ptr, reopened s i.ptr)
  | none => (s.nextPtr, loaded s h)

theorem wp_inodeOpen (hs : Inv s held) (hl : LiveIn s h) (Q : Option Nat → Fs → Prop) :
    wp (inodeOpen h) s Q ↔ Q (some (opened s h).1) (opened s h).2 := by
  cases hlookup : lookup Inode.sector s.openInodes h with
  | some i =>
    rw [wp_inodeOpen_shared hlookup, opened, hlookup]
  | none =>
    obtain ⟨hcap, hlba, -⟩ := (hs.disk.placed h hl).used mem_owned
    have haddr : Addressable s h := ⟨hcap, hlba⟩
    rw [wp_inodeOpen_new hs.failures hlookup, opened, hlookup]
    exact and_iff_right haddr

@[simp] theorem opened_disk (s : Fs) (h : Nat) : (opened s h).2.disk = s.disk := by
  unfold opened
  split <;> rfl

@[simp] theorem opened_freeMap (s : Fs) (h : Nat) : (opened s h).2.freeMap = s.freeMap := by
  unfold opened
  split <;> rfl

theorem inv_opened (hs : Inv s held) (hl : LiveIn s h) :
    Inv (opened s h).2 ((opened s h).1 :: held) := by
  unfold opened
  cases hlookup : lookup Inode.sector s.openInodes h with
  | some i => exact hs.reopened (mem_of_lookup hlookup)
  | none => exact hs.loaded hl hlookup

/-- The inodes after `inode_open`: the one that was opened and the others, which are as before. -/
theorem mem_opened (hs : Inv s held) (hj : j ∈ (opened s h).2.openInodes) :
    (j.ptr = (opened s h).1 ∧ j.sector = h ∧
      ((j = loadInode s h ∧ h ∉ openSectors s) ∨
        ∃ i ∈ s.openInodes, j = { i with openCnt := i.openCnt + 1 })) ∨
    (j ∈ s.openInodes ∧ j.ptr ≠ (opened s h).1 ∧ j.sector ≠ h) := by
  unfold opened at hj ⊢
  cases hlookup : lookup Inode.sector s.openInodes h with
  | some i =>
    have hi := mem_of_lookup hlookup
    have hsector := key_of_lookup hlookup
    simp only [hlookup] at hj ⊢
    rcases (hs.heap.uniquePtr.mem_update hi).1 hj with rfl | ⟨hj, hne⟩
    · exact .inl ⟨rfl, hsector, .inr ⟨i, hi, rfl⟩⟩
    · refine .inr ⟨hj, hne, ?_⟩
      intro e
      exact hne (congrArg Inode.ptr (hs.heap.uniqueSector.eq_of_key hj hi (e.trans hsector.symm)))
  | none =>
    simp only [hlookup] at hj ⊢
    rcases List.mem_cons.1 hj with rfl | hj
    · refine .inl ⟨rfl, rfl, .inl ⟨rfl, ?_⟩⟩
      rintro ⟨j, hj, e⟩
      exact lookup_eq_none_iff.1 hlookup j hj e
    · exact .inr ⟨hj, Nat.ne_of_lt (hs.heap.inode_lt j hj), lookup_eq_none_iff.1 hlookup j hj⟩

/-- The inode that was opened. -/
theorem exists_opened (hs : Inv s held) (hl : LiveIn s h) :
    ∃ j ∈ (opened s h).2.openInodes, j.ptr = (opened s h).1 ∧ j.sector = h := by
  obtain ⟨j, hj, hptr⟩ := (inv_opened hs hl).heap.inode_of_held List.mem_cons_self
  rcases mem_opened hs hj with ⟨-, hsector, -⟩ | ⟨-, hne, -⟩
  · exact ⟨j, hj, hptr, hsector⟩
  · exact absurd hptr hne

/-- The inodes on other sectors are as before. -/
theorem mem_opened_other (hs : Inv s held) (hi : i ∈ s.openInodes) (hne : i.sector ≠ h) :
    i ∈ (opened s h).2.openInodes ∧ i.ptr ≠ (opened s h).1 := by
  unfold opened
  cases hlookup : lookup Inode.sector s.openInodes h with
  | some j =>
    have hptr : i.ptr ≠ j.ptr := by
      intro e
      obtain rfl := hs.heap.eq_of_ptr hi (mem_of_lookup hlookup) e
      exact hne (key_of_lookup hlookup)
    exact ⟨(hs.heap.uniquePtr.mem_update (mem_of_lookup hlookup)).2 (.inr ⟨hi, hptr⟩), hptr⟩
  | none => exact ⟨List.mem_cons_of_mem _ hi, Nat.ne_of_lt (hs.heap.inode_lt i hi)⟩

/-! ## Closing -/

/-- The free map without the sectors of an inode. -/
def freedMap (m : Bitmap) (i : Inode) : Bitmap :=
  (m.setMultiple i.sector 1 false).setMultiple i.start (bytesToSectors i.length) false

/-- The state after `inode_close`, the free map file being on the inode `i0`. -/
def closed (s : Fs) (i i0 : Inode) : Fs :=
  if i.openCnt = 1 then
    if i.removed then storeMap (s.dropInode i.ptr) i0 (freedMap s.freeMap i) else s.dropInode i.ptr
  else unshared s i.ptr

theorem closed_freeMap (s : Fs) (i i0 : Inode) : (closed s i i0).freeMap =
    if i.openCnt = 1 ∧ i.removed = true then freedMap s.freeMap i else s.freeMap := by
  unfold closed
  by_cases hcnt : i.openCnt = 1
  · cases hremoved : i.removed with
    | true => simp [hcnt, storeMap]
    | false => simp [hcnt]
  · simp [hcnt, unshared]

/-- The inodes after `inode_close`: the others, and the one that was closed while it has openers. -/
theorem mem_closed (hs : Inv s held) (hi : i ∈ s.openInodes) :
    j ∈ (closed s i i0).openInodes ↔
      (j ∈ s.openInodes ∧ j.ptr ≠ i.ptr) ∨
        (i.openCnt ≠ 1 ∧ j = { i with openCnt := i.openCnt - 1 }) := by
  have hdrop : j ∈ (s.dropInode i.ptr).openInodes ↔ j ∈ s.openInodes ∧ j.ptr ≠ i.ptr := mem_erase
  unfold closed
  by_cases hcnt : i.openCnt = 1
  · have hstore : (storeMap (s.dropInode i.ptr) i0 (freedMap s.freeMap i)).openInodes =
        (s.dropInode i.ptr).openInodes := rfl
    cases i.removed with
    | true => simp [hcnt, hstore, hdrop]
    | false => simp [hcnt, hdrop]
  · have hmem :=
      hs.heap.uniquePtr.mem_update (b := j) (f := fun j => { j with openCnt := j.openCnt - 1 }) hi
    simp only [ne_eq, hcnt, not_false_eq_true, true_and]
    rw [or_comm]
    exact hmem

/-- The sectors of an inode can be freed. -/
structure Freeable (m : Bitmap) (i : Inode) : Prop where
  header_lt : i.sector < m.bitCnt
  header_used : m.test i.sector = true
  fits : i.start + bytesToSectors i.length ≤ m.bitCnt
  data_used : ∀ x, i.start ≤ x → x < i.start + bytesToSectors i.length → m.test x = true
  apart : ¬ (i.start ≤ i.sector ∧ i.sector < i.start + bytesToSectors i.length)

theorem freeable (hs : Inv s held) (hi : i ∈ s.openInodes) : Freeable s.freeMap i := by
  obtain ⟨hstart, hlen⟩ := hs.data i hi
  have hp := hs.disk.placed _ (live_of_open hi)
  have hextent : ∀ x, x ∈ extent s.disk i.sector ↔
      i.start ≤ x ∧ x < i.start + bytesToSectors i.length := by
    intro x
    rw [hstart, hlen]
    rfl
  obtain ⟨hcap, -, htest⟩ := hp.used mem_owned
  refine ⟨hs.mapBits ▸ hcap, htest, ?_, ?_, ?_⟩
  · rw [hs.mapBits, hstart, hlen]
    exact hp.fits
  · intro x h1 h2
    exact (hp.used (extent_subset ((hextent x).2 ⟨h1, h2⟩))).2.2
  · exact fun hmem => hp.apart ((hextent _).2 hmem)

/-- The bits after the sectors of an inode are freed. -/
theorem test_freedMap (hf : Freeable m i) (x : Nat) :
    (freedMap m i).test x =
      if x = i.sector ∨ (i.start ≤ x ∧ x < i.start + bytesToSectors i.length) then false
      else m.test x := by
  have hheader : i.sector + 1 ≤ m.bitCnt := hf.header_lt
  rw [freedMap, Bitmap.test_setMultiple (by rw [Bitmap.setMultiple_bitCnt]; exact hf.fits),
    Bitmap.test_setMultiple hheader]
  have hone : i.sector ≤ x ∧ x < i.sector + 1 ↔ x = i.sector := by omega
  simp only [hone]
  by_cases hdata : i.start ≤ x ∧ x < i.start + bytesToSectors i.length
  · rw [if_pos hdata, if_pos (.inr hdata)]
  · rw [if_neg hdata]
    by_cases hsector : x = i.sector
    · rw [if_pos hsector, if_pos (.inl hsector)]
    · rw [if_neg hsector, if_neg (not_or.2 ⟨hsector, hdata⟩)]

@[simp] theorem freedMap_bitCnt (m : Bitmap) (i : Inode) : (freedMap m i).bitCnt = m.bitCnt := by
  rw [freedMap, Bitmap.setMultiple_bitCnt, Bitmap.setMultiple_bitCnt]

/-- Storing the free map twice leaves the second one. -/
theorem storeMap_storeMap {m' : Bitmap} (hbits : m'.bitCnt = m.bitCnt) :
    storeMap (storeMap s i0 m) i0 m' = storeMap s i0 m' := by
  simp only [storeMap, Fs.patchDisk, hbits, patch_patch]

theorem mapFile_storeMap (hm : MapFile s i0) (hbits : m.bitCnt = s.freeMap.bitCnt) :
    MapFile (storeMap s i0 m) i0 where
  opened := hm.opened
  length := by
    show i0.length = byteCnt m.bitCnt
    rw [hbits]
    exact hm.length
  onDisk := hm.onDisk.congr rfl
  writable := hm.writable

theorem mapFile_dropInode {p : Nat} (hm : MapFile s i0) (hne : i0.ptr ≠ p) :
    MapFile (s.dropInode p) i0 where
  opened := by
    obtain ⟨f, hf, hfile, hinode⟩ := hm.opened
    refine ⟨f, hf, hfile, ?_⟩
    have hkey : i0.ptr = f.inode := key_of_lookup hinode
    show lookup Inode.ptr (erase Inode.ptr s.openInodes p) f.inode = some i0
    rw [lookup_erase, if_neg (hkey ▸ hne)]
    exact hinode
  length := hm.length
  onDisk := hm.onDisk.congr rfl
  writable := hm.writable

/-- The two releases of `inode_close`: the header, then the data. -/
theorem wp_releaseInode (hf : s.failures = []) (hm : MapFile s i0) (hfree : Freeable s.freeMap i)
    (Q : Unit → Fs → Prop) :
    (wp (freeMapRelease i.sector 1) s fun _ t =>
      wp (freeMapRelease i.start (bytesToSectors i.length)) t Q) ↔
      Q () (storeMap s i0 (freedMap s.freeMap i)) := by
  have hm' := mapFile_storeMap (m := s.freeMap.setMultiple i.sector 1 false) hm
    Bitmap.setMultiple_bitCnt
  have hheader : i.sector + 1 ≤ s.freeMap.bitCnt := hfree.header_lt
  have hmap : (storeMap s i0 (s.freeMap.setMultiple i.sector 1 false)).freeMap =
      s.freeMap.setMultiple i.sector 1 false := rfl
  rw [wp_freeMapRelease hf hm hheader]
  · rw [wp_freeMapRelease (s := storeMap s i0 _) hf hm', hmap,
      storeMap_storeMap Bitmap.setMultiple_bitCnt, freedMap]
    · exact hfree.fits
    · intro x h1 h2
      have hxi : ¬ (i.sector ≤ x ∧ x < i.sector + 1) := by
        intro hx
        obtain rfl : x = i.sector := by omega
        exact hfree.apart ⟨h1, h2⟩
      rw [hmap, Bitmap.test_setMultiple hheader, if_neg hxi]
      exact hfree.data_used x h1 h2
  · intro x h1 h2
    obtain rfl : x = i.sector := by omega
    exact hfree.header_used

/-- **Closing an inode.** -/
theorem wp_inodeClose (hf : s.failures = [])
    (hlookup : lookup Inode.ptr s.openInodes i.ptr = some i)
    (hm : MapFile s i0) (hne : i0.ptr ≠ i.ptr) (hfree : Freeable s.freeMap i)
    (Q : Unit → Fs → Prop) :
    wp (inodeClose (some i.ptr)) s Q ↔ Q () (closed s i i0) := by
  by_cases hcnt : i.openCnt = 1
  · have hrelease := wp_releaseInode (s := s.dropInode i.ptr) hf (mapFile_dropInode hm hne) hfree Q
    rw [wp_inodeClose_last hlookup hcnt, hrelease, closed, if_pos hcnt]
    cases i.removed with
    | false => simp
    | true =>
      simp only [Bool.true_eq_false, IsEmpty.forall_iff, true_and, forall_const, if_true]
      exact Iff.rfl
  · rw [wp_inodeClose_shared hlookup hcnt, closed, if_neg hcnt]

/-- Closing an inode keeps the state consistent: the sectors that are freed belong to no inode that
stays live. -/
theorem inv_closed (hs : Inv s held) (hi : i ∈ s.openInodes) (hp : i.ptr ∈ held)
    (hi0 : i0 ∈ s.openInodes) (hsector : i0.sector = freeMapSector) (hne : i0.ptr ≠ i.ptr) :
    Inv (closed s i i0) (held.erase i.ptr) := by
  unfold closed
  by_cases hcnt : i.openCnt = 1
  · have hdrop := hs.dropInode hi hp hcnt
    rw [if_pos hcnt]
    cases hremoved : i.removed with
    | false =>
      exact hdrop
    | true =>
      obtain ⟨hroot, hunbound⟩ := hs.nameless i hi hremoved
      refine hdrop.storeMap (mem_erase.2 ⟨hi0, hne⟩) hsector (freedMap_bitCnt _ _) ?_
      intro h hh x hx
      -- the live inodes that remain are others than `i`
      have hlive : LiveIn s h ∧ h ≠ i.sector := by
        rcases hh with rfl | rfl | ⟨k, hb⟩ | ⟨j, hj, rfl⟩
        · refine ⟨live_map, fun e => hne ?_⟩
          exact congrArg Inode.ptr (hs.heap.uniqueSector.eq_of_key hi0 hi (hsector.trans e))
        · exact ⟨live_root, hroot.symm⟩
        · exact ⟨live_bound hb, fun e => hunbound k (e ▸ hb)⟩
        · obtain ⟨hj, hjne⟩ := mem_erase.1 hj
          refine ⟨live_of_open hj, fun e => hjne ?_⟩
          exact congrArg Inode.ptr (hs.heap.uniqueSector.eq_of_key hj hi e)
      obtain ⟨hcap, hlba, htest⟩ := (hs.disk.placed h hlive.1).used hx
      have hnot := Set.disjoint_left.1 (hs.disk.disjoint _ _ hlive.1 (live_of_open hi) hlive.2) hx
      refine ⟨hcap, hlba, ?_⟩
      rw [test_freedMap (freeable hs hi), if_neg]
      · exact htest
      · rw [(hs.data i hi).1, (hs.data i hi).2]
        exact hnot
  · rw [if_neg hcnt]
    exact hs.unshared hi hp hcnt

/-! ## What stays as it is -/

/-- The inode of before, with at most the counts and the mark for removal changed. -/
structure SameInode (i j : Inode) : Prop where
  ptr : i.ptr = j.ptr
  sector : i.sector = j.sector
  start : i.start = j.start
  length : i.length = j.length
  removed : i.removed = true → j.removed = true

theorem SameInode.refl (i : Inode) : SameInode i i := ⟨rfl, rfl, rfl, rfl, id⟩

theorem SameInode.trans {i k : Inode} (h : SameInode i j) (h' : SameInode j k) : SameInode i k :=
  ⟨h.ptr.trans h'.ptr, h.sector.trans h'.sector, h.start.trans h'.start, h.length.trans h'.length,
    fun hr => h'.removed (h.removed hr)⟩

/-- The table of inodes gained no inode under an old pointer. -/
structure KeepsInodes (s t : Fs) : Prop where
  inode : ∀ j ∈ t.openInodes, j.ptr < s.nextPtr → ∃ i ∈ s.openInodes, SameInode i j
  next : s.nextPtr ≤ t.nextPtr

theorem keepsInodes_of_eq (h : t.openInodes = s.openInodes) (hn : t.nextPtr = s.nextPtr) :
    KeepsInodes s t :=
  ⟨fun j hj _ => ⟨j, h ▸ hj, .refl j⟩, hn ▸ le_refl _⟩

theorem KeepsInodes.trans {s u : Fs} (h : KeepsInodes s t) (h' : KeepsInodes t u) :
    KeepsInodes s u := by
  refine ⟨?_, h.next.trans h'.next⟩
  intro k hk hlt
  obtain ⟨j, hj, hjk⟩ := h'.inode k hk (lt_of_lt_of_le hlt h.next)
  obtain ⟨i, hi, hij⟩ := h.inode j hj (hjk.ptr ▸ hlt)
  exact ⟨i, hi, hij.trans hjk⟩

/-- The data of the free map file and of the root directory. -/
def systemData (d : Bytes) : Set Nat := extent d freeMapSector ∪ extent d rootDirSector

/-- Of the disk only the free map file and the root directory may have changed, and the table of
inodes gained no inode under an old pointer. -/
structure Quiet (s t : Fs) : Prop where
  agree : AgreeOn s.disk t.disk (systemData s.disk)ᶜ
  system : systemData t.disk = systemData s.disk
  keeps : KeepsInodes s t

theorem Quiet.trans {s u : Fs} (h : Quiet s t) (h' : Quiet t u) : Quiet s u where
  agree := by
    intro x hx k hk
    have hx' := hx
    rw [← h.system] at hx'
    rw [h'.agree x hx' k hk, h.agree x hx k hk]
  system := h'.system.trans h.system
  keeps := h.keeps.trans h'.keeps

/-- The headers of the free map file and of the root directory are no data of theirs. -/
theorem quiet_of_agree (hs : Inv s held) (ha : AgreeOn s.disk t.disk (systemData s.disk)ᶜ)
    (hk : KeepsInodes s t) : Quiet s t := by
  have hextent : ∀ g, LiveIn s g → extent t.disk g = extent s.disk g := by
    intro g hg
    have hnot : g ∈ (systemData s.disk)ᶜ := by
      rintro (hmem | hmem)
      · exact hs.disk.header_not_data hg live_map hmem
      · exact hs.disk.header_not_data hg live_root hmem
    exact extent_congr (header_congr fun k hk => ha g hnot k hk)
  exact ⟨ha, by rw [systemData, systemData, hextent _ live_map, hextent _ live_root], hk⟩

theorem quiet_of_disk (hd : t.disk = s.disk) (hk : KeepsInodes s t) : Quiet s t :=
  ⟨fun _ _ _ _ => by rw [hd], by rw [hd], hk⟩

/-- The sectors of the other live inodes are as they were. -/
theorem Quiet.keepsFile (hq : Quiet s t) (hs : Inv s held) (hl : LiveIn s h)
    (hmap : h ≠ freeMapSector) (hroot : h ≠ rootDirSector) :
    AgreeOn s.disk t.disk (owned s.disk h) := by
  apply hq.agree.mono
  rintro x hx (hmem | hmem)
  · exact Set.disjoint_left.1 (hs.disk.disjoint _ _ hl live_map hmap) hx (extent_subset hmem)
  · exact Set.disjoint_left.1 (hs.disk.disjoint _ _ hl live_root hroot) hx (extent_subset hmem)

theorem keepsInodes_mapInode {g : Inode → Inode} {p : Nat} (hg : ∀ j, SameInode j (g j)) :
    KeepsInodes s (s.mapInode p g) := by
  refine ⟨?_, le_refl _⟩
  intro j hj _
  obtain ⟨i, hi, rfl⟩ := List.mem_map.1 hj
  refine ⟨i, hi, ?_⟩
  split
  · exact hg i
  · exact .refl i

theorem keepsInodes_dropInode (p : Nat) : KeepsInodes s (s.dropInode p) :=
  ⟨fun j hj _ => ⟨j, (mem_erase.1 hj).1, .refl j⟩, le_refl _⟩

theorem quiet_opened (h : Nat) : Quiet s (opened s h).2 := by
  unfold opened
  cases lookup Inode.sector s.openInodes h with
  | some i => exact quiet_of_disk rfl (keepsInodes_mapInode fun j => ⟨rfl, rfl, rfl, rfl, id⟩)
  | none =>
    refine quiet_of_disk rfl ⟨?_, Nat.le_succ _⟩
    intro j hj hlt
    rcases List.mem_cons.1 hj with rfl | hj
    · exact absurd hlt (lt_irrefl _)
    · exact ⟨j, hj, .refl j⟩

theorem quiet_storeMap (hs : Inv s held) (hi0 : i0 ∈ s.openInodes)
    (hsector : i0.sector = freeMapSector) (hbits : m.bitCnt = s.freeMap.bitCnt) :
    Quiet s (storeMap s i0 m) := by
  refine quiet_of_agree hs ?_ (keepsInodes_of_eq rfl rfl)
  apply (hs.storeMap_agree hi0 hsector hbits).mono
  exact Set.compl_subset_compl.2 Set.subset_union_left

theorem quiet_closed (hs : Inv s held) (hi : i ∈ s.openInodes) (hp : i.ptr ∈ held)
    (hi0 : i0 ∈ s.openInodes) (hsector : i0.sector = freeMapSector) (hne : i0.ptr ≠ i.ptr) :
    Quiet s (closed s i i0) := by
  unfold closed
  by_cases hcnt : i.openCnt = 1
  · have hdrop : Quiet s (s.dropInode i.ptr) := quiet_of_disk rfl (keepsInodes_dropInode _)
    rw [if_pos hcnt]
    cases i.removed with
    | false =>
      exact hdrop
    | true =>
      exact hdrop.trans (quiet_storeMap (hs.dropInode hi hp hcnt) (mem_erase.2 ⟨hi0, hne⟩) hsector
        (freedMap_bitCnt _ _))
  · rw [if_neg hcnt]
    exact quiet_of_disk rfl (keepsInodes_mapInode fun j => ⟨rfl, rfl, rfl, rfl, id⟩)

theorem quiet_writeEntry (hs : Inv s held) {k : Nat} (hk : k < rootEntries) (e : Nat → UInt8) :
    Quiet s { s with disk := writeEntry s.disk k e } := by
  refine quiet_of_agree hs ?_ (keepsInodes_of_eq rfl rfl)
  apply (hs.disk.writeEntry_agree hk e).mono
  exact Set.compl_subset_compl.2 Set.subset_union_right

end Pintos.Filesys.Calls
