import Pintos.Filesys.FileCalls

/-!
# Spare sectors

Between its allocation and the directory entry that names it, a new inode lies on spare sectors:
they are marked used, but no live inode owns them. What is allocated is spare, what is written to
spare sectors leaves the live inodes alone (`Beside`), and an inode written there is `Reserved`.
-/

set_option autoImplicit false

namespace Pintos.Filesys.Reserve

open Lib.ByteMemory LibKernel
open Filesys.State FreeMap Inode
open Layout
open Invariant Calls FileCalls

variable {s t u : Fs} {held : List Nat} {i0 r : Inode} {h cnt : Nat} {size : Int} {S : Set Nat}

/-! ## Changes beside the live inodes -/

/-- The change touches the free map and sectors that no live inode owns. -/
structure Beside (s t : Fs) : Prop where
  inodes : t.openInodes = s.openInodes
  layout : SameLayout s.disk t.disk (openSectors s)
  data : ∀ h, LiveIn s h → h ≠ freeMapSector → AgreeOn s.disk t.disk (owned s.disk h)

theorem Beside.refl (s : Fs) : Beside s s where
  inodes := rfl
  layout := ⟨fun _ _ => rfl, fun _ _ => rfl, fun _ _ _ _ => rfl⟩
  data := fun _ _ _ _ _ _ _ => rfl

theorem Beside.sectors (hb : Beside s t) : openSectors t = openSectors s := by
  rw [openSectors, openSectors, hb.inodes]

theorem Beside.live_iff (hb : Beside s t) : LiveIn t h ↔ LiveIn s h := by
  rw [LiveIn, hb.sectors]
  exact hb.layout.live_iff

theorem Beside.trans (hst : Beside s t) (htu : Beside t u) : Beside s u where
  inodes := htu.inodes.trans hst.inodes
  layout := by
    have hlayout := htu.layout
    rw [hst.sectors] at hlayout
    have hlive : ∀ h, LiveIn s h → Live t.disk (openSectors s) h :=
      fun h hh => hst.layout.live_iff.2 hh
    refine ⟨?_, ?_, ?_⟩
    · exact fun h hh => (hlayout.start h (hlive h hh)).trans (hst.layout.start h hh)
    · exact fun h hh => (hlayout.length h (hlive h hh)).trans (hst.layout.length h hh)
    · exact fun k hk j hj => (hlayout.slot k hk j hj).trans (hst.layout.slot k hk j hj)
  data := by
    intro h hh hne x hx k hk
    have hx' := hx
    rw [← hst.layout.owned_eq hh] at hx'
    rw [htu.data h (hst.live_iff.2 hh) hne x hx' k hk, hst.data h hh hne x hx k hk]

theorem beside_storeMap (hs : Inv s held) (hi0 : i0 ∈ s.openInodes)
    (hsector : i0.sector = freeMapSector)
    {m : Bitmap} (hbits : m.bitCnt = s.freeMap.bitCnt) : Beside s (storeMap s i0 m) where
  inodes := rfl
  layout := hs.disk.sameLayout_of_data live_map (by decide) (hs.storeMap_agree hi0 hsector hbits)
  data := by
    intro h hh hne
    apply (hs.storeMap_agree hi0 hsector hbits).mono
    intro x hx hmem
    exact Set.disjoint_left.1 (hs.disk.disjoint _ _ hh live_map hne) hx (extent_subset hmem)

/-- The free map file is open on the inode `i0`. -/
structure MapInode (s : Fs) (i0 : Inode) : Prop where
  mem : i0 ∈ s.openInodes
  sector : i0.sector = freeMapSector
  file : MapFile s i0

theorem exists_mapInode (hs : Inv s held) : ∃ i0, MapInode s i0 := by
  obtain ⟨_, i0, -, -, hi0, -, hsector, -, hm⟩ := hs.mapInode
  exact ⟨i0, hi0, hsector, hm⟩

theorem MapInode.storeMap (hm : MapInode s i0) {m : Bitmap} (hbits : m.bitCnt = s.freeMap.bitCnt) :
    MapInode (storeMap s i0 m) i0 :=
  ⟨hm.mem, hm.sector, mapFile_storeMap hm.file hbits⟩

theorem MapInode.writeInode (hm : MapInode s i0) (sector start : Nat) (length : Int) :
    MapInode (writeInode s sector start length) i0 :=
  ⟨hm.mem, hm.sector, hm.file.opened, hm.file.length, hm.file.onDisk.congr rfl, hm.file.writable⟩

/-! ## Spare sectors -/

/-- The sectors are in range and marked used, and no live inode owns them. -/
structure Spare (s : Fs) (S : Set Nat) : Prop where
  lt : ∀ x ∈ S, x < s.capacity
  used : ∀ x ∈ S, s.freeMap.test x = true
  unowned : ∀ h, LiveIn s h → ∀ x ∈ S, x ∉ owned s.disk h

/-- Spare sectors stay spare while they stay marked. -/
theorem Spare.beside (hS : Spare s S) (hb : Beside s t) (hcap : t.capacity = s.capacity)
    (hused : ∀ x ∈ S, t.freeMap.test x = true) : Spare t S where
  lt := hcap ▸ hS.lt
  used := hused
  unowned := by
    intro h hh x hx
    rw [hb.layout.owned_eq (hb.live_iff.1 hh)]
    exact hS.unowned h (hb.live_iff.1 hh) x hx

/-- The state after `free_map_allocate` has taken the run of sectors that it finds. -/
def allocated (s : Fs) (i0 : Inode) (cnt : Nat) : Fs :=
  storeMap s i0 (s.freeMap.setMultiple (s.freeMap.scan 0 cnt false) cnt true)

section Allocated

variable (hfound : s.freeMap.scan 0 cnt false ≠ bitmapError)

include hfound

theorem test_allocated (i0 : Inode) (x : Nat) : (allocated s i0 cnt).freeMap.test x =
    if s.freeMap.scan 0 cnt false ≤ x ∧ x < s.freeMap.scan 0 cnt false + cnt then true
    else s.freeMap.test x :=
  Bitmap.test_setMultiple (Bitmap.scan_spec hfound).2.1

theorem test_allocated_of_used (i0 : Inode) {x : Nat} (hx : s.freeMap.test x = true) :
    (allocated s i0 cnt).freeMap.test x = true := by
  rw [test_allocated hfound, hx, ite_self]

theorem inv_allocated (hs : Inv s held) (hm : MapInode s i0) : Inv (allocated s i0 cnt) held := by
  apply hs.storeMap hm.mem hm.sector Bitmap.setMultiple_bitCnt
  intro h hh x hx
  obtain ⟨hcap, hlba, htest⟩ := (hs.disk.placed h hh).used hx
  exact ⟨hcap, hlba, test_allocated_of_used hfound i0 htest⟩

/-- The sectors that are taken were free, so no live inode owns them. -/
theorem spare_allocated (hs : Inv s held) (hm : MapInode s i0) : Spare (allocated s i0 cnt)
    (Set.Ico (s.freeMap.scan 0 cnt false) (s.freeMap.scan 0 cnt false + cnt)) := by
  obtain ⟨-, hle, hfree⟩ := Bitmap.scan_spec hfound
  have hb : Beside s (allocated s i0 cnt) :=
    beside_storeMap hs hm.mem hm.sector Bitmap.setMultiple_bitCnt
  refine ⟨?_, ?_, ?_⟩
  · intro x hx
    have hcap : (allocated s i0 cnt).capacity = s.freeMap.bitCnt := hs.mapBits.symm
    rw [hcap]
    exact lt_of_lt_of_le hx.2 hle
  · intro x hx
    rw [test_allocated hfound, if_pos ⟨hx.1, hx.2⟩]
  · intro h hh x hx hmem
    rw [hb.layout.owned_eq (hb.live_iff.1 hh)] at hmem
    obtain ⟨-, -, htest⟩ := (hs.disk.placed h (hb.live_iff.1 hh)).used hmem
    rw [hfree x hx.1 hx.2] at htest
    exact Bool.false_ne_true htest

end Allocated

/-! ## The new inode -/

/-- The data sectors of a new inode. -/
def newData (start : Nat) (size : Int) : Set Nat := Set.Ico start (start + bytesToSectors size)

/-- Writing an inode touches its header and its data. -/
theorem writeInode_agree (s : Fs) (h start : Nat) (size : Int) :
    AgreeOn s.disk (writeInode s h start size).disk (insert h (newData start size))ᶜ := by
  intro x hx k hk
  rw [Set.mem_compl_iff, Set.mem_insert_iff, not_or] at hx
  have hdata : x < start ∨ start + bytesToSectors size ≤ x := by
    by_contra hin
    exact hx.2 ⟨by omega, by omega⟩
  have hheader : x < h ∨ h + 1 ≤ x := by
    omega
  -- the data is cleared after the header is written
  have h1 := agreeOn_patch (d := s.disk) (a := h) (c := 1) (o := 0) (n := sectorSize) (S := {x})
    (f := inodeBlock start size) (by omega) (by rintro _ rfl; exact hheader)
  have h2 := agreeOn_patch (d := patch s.disk (sectorSize * h) sectorSize (inodeBlock start size))
    (a := start) (c := bytesToSectors size) (o := 0) (n := sectorSize * bytesToSectors size)
    (S := {x}) (f := fun _ => 0) (by omega) (by rintro _ rfl; exact hdata)
  exact (h2 x rfl k hk).trans (h1 x rfl k hk)

/-- The header that is written. -/
theorem header_writeInode {start : Nat} (hsize : 0 ≤ size) (hlt : size < 2 ^ 31)
    (hstart : start < 2 ^ 32) (hapart : h ∉ newData start size) :
    headerStart (writeInode s h start size).disk h = start ∧
      headerLength (writeInode s h start size).disk h = size := by
  have hdata : h < start ∨ start + bytesToSectors size ≤ h := by
    by_contra hin
    exact hapart ⟨by omega, by omega⟩
  have hzero :=
    agreeOn_patch (d := patch s.disk (sectorSize * h) sectorSize (inodeBlock start size))
    (a := start) (c := bytesToSectors size) (o := 0) (n := sectorSize * bytesToSectors size)
    (S := {h}) (f := fun _ => 0) (by omega) (by rintro _ rfl; exact hdata)
  have hbytes : ∀ k < sectorSize, (writeInode s h start size).disk (sectorSize * h + k) =
      inodeBlock start size k := by
    intro k hk
    refine (hzero h rfl k hk).trans ?_
    rw [patch_inside (by omega) (by omega), Nat.add_sub_cancel_left]
  have hss : sectorSize = 512 := rfl
  have hread : ∀ o, o + 4 ≤ 512 →
      readLE (fun k => (writeInode s h start size).disk (sectorSize * h + k)) 4 o =
        readLE (inodeBlock start size) 4 o := by
    intro o ho
    apply readLE_congr
    intro k hk
    exact hbytes (o + k) (by omega)
  constructor
  · rw [headerStart, blockStart, hread 0 (by norm_num)]
    exact blockStart_inodeBlock hstart
  · unfold headerLength blockLength
    rw [hread 4 (by norm_num)]
    exact blockLength_inodeBlock hsize hlt

/-- The new inode is well placed. -/
theorem placed_writeInode {start : Nat} (hsize : 0 ≤ size) (hlt : size < 2 ^ 31)
    (hstart : start < 2 ^ 32)
    (hapart : h ∉ newData start size) (hfits : start + bytesToSectors size ≤ s.capacity)
    (haddr : Addressable s h) (haddrs : ∀ x ∈ newData start size, Addressable s x)
    (hused : s.freeMap.test h = true) (huseds : ∀ x ∈ newData start size, s.freeMap.test x = true) :
    Placed (writeInode s h start size).disk s.freeMap s.capacity h ∧
      extent (writeInode s h start size).disk h = newData start size := by
  obtain ⟨hs, hl⟩ := header_writeInode (s := s) hsize hlt hstart hapart
  have hextent : extent (writeInode s h start size).disk h = newData start size := by
    rw [extent, hs, hl]
    rfl
  refine ⟨⟨?_, ?_, ?_, ?_⟩, hextent⟩
  · rw [owned, hextent]
    rintro x (rfl | hx)
    · exact ⟨haddr.1, haddr.2, hused⟩
    · exact ⟨(haddrs x hx).1, (haddrs x hx).2, huseds x hx⟩
  · rw [hextent]
    exact hapart
  · rw [hs, hl]
    exact hfits
  · rw [hl]
    exact hsize

section NewInode

variable {start : Nat} (hs : Inv s held) (hh : Spare s {h}) (hd : Spare s (newData start size))

include hs hh hd

omit hs in
theorem writeInode_data {g : Nat} (hg : LiveIn s g) :
    AgreeOn s.disk (writeInode s h start size).disk (owned s.disk g) := by
  apply (writeInode_agree s h start size).mono
  rintro x hx (rfl | hmem)
  · exact hh.unowned g hg x rfl hx
  · exact hd.unowned g hg x hmem hx

theorem inv_writeInode : Inv (writeInode s h start size) held :=
  hs.writeFree fun _ hg => writeInode_data hh hd hg

theorem beside_writeInode : Beside s (writeInode s h start size) where
  inodes := rfl
  layout := by
    apply hs.disk.sameLayout
    · intro g hg
      apply (writeInode_data hh hd hg).mono
      rintro x rfl
      exact mem_owned
    · exact (writeInode_data hh hd live_root).mono extent_subset
  data := fun _ hg _ => writeInode_data hh hd hg

/-- The new inode is ready to be named. -/
theorem reserved_writeInode (hsize : 0 ≤ size) (hlt : size < 2 ^ 31)
    (hapart : h ∉ newData start size)
    (hfits : start + bytesToSectors size ≤ s.capacity) (haddr : Addressable s h)
    (haddrs : ∀ x ∈ newData start size, Addressable s x) :
    Reserved (writeInode s h start size).disk s.freeMap s.capacity (openSectors s) h := by
  have hcap := hs.capacity
  obtain ⟨hplaced, hextent⟩ := placed_writeInode hsize hlt (by omega) hapart hfits haddr haddrs
    (hh.used h rfl) hd.used
  have hb := beside_writeInode hs hh hd
  refine ⟨hplaced, ?_⟩
  intro g hg
  have hg' : LiveIn s g := hb.layout.live_iff.1 hg
  rw [owned, hextent, hb.layout.owned_eq hg', Set.disjoint_left]
  rintro x (rfl | hx)
  · exact hh.unowned g hg' x rfl
  · exact hd.unowned g hg' x hx

end NewInode

end Pintos.Filesys.Reserve
