import Pintos.Filesys.Operations
import Mathlib.Order.CompletePartialOrder

/-!
# The layout of the disk

Who owns which sector. A header sector owns itself and the run of data sectors that the inode in it
describes. The live inodes are the free map file, the root directory, the files named by its
entries, and the open ones. `DiskInv` states that live inodes own disjoint sets of sectors, all
marked used in the free map. Its lemmas say which changes of the disk keep it: what is written
outside the headers and the root directory, entries that are freed, and entries that name a newly
placed inode.
-/

set_option autoImplicit false

namespace Pintos.Filesys.Layout

open Lib.ByteMemory LibKernel Filesys.State Inode
open Directory

/-! ## Views of the disk -/

/-- The data sectors of the inode in a header sector. -/
def extent (d : Bytes) (h : Nat) : Set Nat :=
  { x | headerStart d h ≤ x ∧ x < headerStart d h + bytesToSectors (headerLength d h) }

/-- The sectors that belong to an inode: its header and its data. -/
def owned (d : Bytes) (h : Nat) : Set Nat := insert h (extent d h)

/-- The number of entries that `do_format` gives the root directory. -/
def rootEntries : Nat := 16

/-- An entry of the root directory. -/
def rootSlot (d : Bytes) (k : Nat) : Nat → UInt8 := slot d (headerStart d rootDirSector) k

/-- Entry `k` of the root directory names the inode in sector `h`. -/
def Bound (d : Bytes) (k h : Nat) : Prop :=
  k < rootEntries ∧ entryInUse (rootSlot d k) = true ∧ entrySector (rootSlot d k) = h

/-- The inode in sector `h` is not the root directory, and no entry names it. -/
def Nameless (d : Bytes) (h : Nat) : Prop := h ≠ rootDirSector ∧ ∀ k, ¬ Bound d k h

/-- The header sectors of the live inodes, `opened` being those of the open ones. -/
def Live (d : Bytes) (opened : Set Nat) (h : Nat) : Prop :=
  h = freeMapSector ∨ h = rootDirSector ∨ (∃ k, Bound d k h) ∨ h ∈ opened

/-- The sectors that can be accessed and are marked in the free map. -/
def usedSectors (m : Bitmap) (cap : Nat) : Set Nat := { x | x < cap ∧ x < 2 ^ 28 ∧ m.test x = true }

/-- The disks have the same bytes in these sectors. -/
def AgreeOn (d d' : Bytes) (S : Set Nat) : Prop :=
  ∀ x ∈ S, ∀ i < sectorSize, d' (sectorSize * x + i) = d (sectorSize * x + i)

variable {d : Bytes}

theorem AgreeOn.mono {d' : Bytes} {S T : Set Nat} (h : AgreeOn d d' S) (hT : T ⊆ S) :
    AgreeOn d d' T :=
  fun x hx => h x (hT hx)

/-- A change inside a run of sectors leaves the other sectors as they are. -/
theorem agreeOn_patch {a c o n : Nat} {f : Nat → UInt8} {S : Set Nat} (hn : o + n ≤ sectorSize * c)
    (hS : ∀ x ∈ S, x < a ∨ a + c ≤ x) :
    AgreeOn d (patch d (sectorSize * a + o) n f) S := by
  intro x hx i hi
  apply patch_outside
  simp only [sectorSize] at *
  rcases hS x hx with h | h <;> omega

/-- The bytes of a data sector, by their offset from the start of the data. -/
theorem AgreeOn.data {d' : Bytes} {start cnt o : Nat}
    (h : AgreeOn d d' { x | start ≤ x ∧ x < start + cnt }) (ho : o < sectorSize * cnt) :
    d' (sectorSize * start + o) = d (sectorSize * start + o) := by
  have hsector : start + o / 512 ∈ { x | start ≤ x ∧ x < start + cnt } := by
    simp only [sectorSize] at ho
    constructor <;> omega
  have hbyte := h _ hsector (o % 512) (Nat.mod_lt _ (by decide))
  have haddr : sectorSize * (start + o / 512) + o % 512 = sectorSize * start + o := by
    simp only [sectorSize]
    omega
  rwa [haddr] at hbyte

/-! ## The invariant -/

/-- The inode in sector `h` is well placed: its sectors are in range and used. -/
structure Placed (d : Bytes) (m : Bitmap) (cap h : Nat) : Prop where
  used : owned d h ⊆ usedSectors m cap
  apart : h ∉ extent d h
  fits : headerStart d h + bytesToSectors (headerLength d h) ≤ cap
  length_nonneg : 0 ≤ headerLength d h

/-- The live inodes are well placed and share no sector. -/
structure DiskInv (d : Bytes) (m : Bitmap) (cap : Nat) (opened : Set Nat) : Prop where
  placed : ∀ h, Live d opened h → Placed d m cap h
  disjoint : ∀ h h', Live d opened h → Live d opened h' → h ≠ h' → Disjoint (owned d h) (owned d h')
  rootLength : headerLength d rootDirSector = (entrySize * rootEntries : Nat)
  mapLength : headerLength d freeMapSector = byteCnt cap
  bound_ne : ∀ k h, Bound d k h → h ≠ freeMapSector ∧ h ≠ rootDirSector
  bound_inj : ∀ k k' h, Bound d k h → Bound d k' h → k = k'
  name_inj : ∀ k k' name, k < rootEntries → k' < rootEntries → EntryFor (rootSlot d k) name →
    EntryFor (rootSlot d k') name → k = k'

section Inv

variable {d d' : Bytes} {m m' : Bitmap} {cap : Nat} {opened opened' : Set Nat} {h k : Nat}
  {g k' : Nat} {name : CString} {e : Nat → UInt8}

theorem live_map : Live d opened freeMapSector := .inl rfl

theorem live_root : Live d opened rootDirSector := .inr (.inl rfl)

theorem live_bound (hb : Bound d k h) : Live d opened h := .inr (.inr (.inl ⟨k, hb⟩))

theorem live_opened (ho : h ∈ opened) : Live d opened h := .inr (.inr (.inr ho))

theorem mem_owned : h ∈ owned d h := Set.mem_insert h _

theorem extent_subset : extent d h ⊆ owned d h := Set.subset_insert h _

section Header

variable (hh : headerStart d' h = headerStart d h ∧ headerLength d' h = headerLength d h)
include hh

theorem extent_congr : extent d' h = extent d h := by
  rw [extent, extent, hh.1, hh.2]

theorem owned_congr : owned d' h = owned d h := by
  rw [owned, owned, extent_congr hh]

/-- An inode that keeps its header is as well placed as it was, if its sectors are marked. -/
theorem Placed.congr (hp : Placed d m cap h) (hused : owned d h ⊆ usedSectors m' cap) :
    Placed d' m' cap h := by
  refine ⟨?_, ?_, ?_, ?_⟩
  · rw [owned_congr hh]
    exact hused
  · rw [extent_congr hh]
    exact hp.apart
  · rw [hh.1, hh.2]
    exact hp.fits
  · rw [hh.2]
    exact hp.length_nonneg

end Header

/-- The data of the root directory has room for its entries. -/
theorem DiskInv.rootEntries_fit (hi : DiskInv d m cap opened) :
    entrySize * rootEntries ≤ sectorSize * bytesToSectors (headerLength d rootDirSector) := by
  rw [hi.rootLength]
  decide

/-- A header sector of a live inode is data of none. -/
theorem DiskInv.header_not_data (hi : DiskInv d m cap opened) (hh : Live d opened h)
    (hg : Live d opened g) : h ∉ extent d g := by
  intro hmem
  by_cases e : h = g
  · subst e
    exact (hi.placed h hh).apart hmem
  · exact Set.disjoint_left.1 (hi.disjoint h g hh hg e) mem_owned (extent_subset hmem)

/-! ## Changes outside headers and entries -/

/-- The disks have the same headers of live inodes and the same root directory. -/
structure SameLayout (d d' : Bytes) (opened : Set Nat) : Prop where
  start : ∀ h, Live d opened h → headerStart d' h = headerStart d h
  length : ∀ h, Live d opened h → headerLength d' h = headerLength d h
  slot : ∀ k < rootEntries, ∀ j < entrySize, rootSlot d' k j = rootSlot d k j

section

variable (hs : SameLayout d d' opened)
include hs

theorem SameLayout.extent_eq (hh : Live d opened h) :
    extent d' h = extent d h :=
  extent_congr ⟨hs.start h hh, hs.length h hh⟩

theorem SameLayout.owned_eq (hh : Live d opened h) :
    owned d' h = owned d h :=
  owned_congr ⟨hs.start h hh, hs.length h hh⟩

theorem SameLayout.bound_iff : Bound d' k h ↔ Bound d k h := by
  constructor
  · rintro ⟨hk, huse, hsec⟩
    refine ⟨hk, ?_, ?_⟩
    · rwa [← entryInUse_congr (hs.slot k hk)]
    · rwa [← entrySector_congr (hs.slot k hk)]
  · rintro ⟨hk, huse, hsec⟩
    refine ⟨hk, ?_, ?_⟩
    · rwa [entryInUse_congr (hs.slot k hk)]
    · rwa [entrySector_congr (hs.slot k hk)]

theorem SameLayout.live_iff :
    Live d' opened h ↔ Live d opened h := by
  simp only [Live, hs.bound_iff]

theorem SameLayout.entryFor_iff (hk : k < rootEntries) :
    EntryFor (rootSlot d' k) name ↔ EntryFor (rootSlot d k) name := by
  rw [EntryFor, EntryFor, entryInUse_congr (hs.slot k hk), entryName_congr (hs.slot k hk)]

end

section

variable (hi : DiskInv d m cap opened)
include hi

/-- Agreement on the headers and the root directory gives the same layout. -/
theorem DiskInv.sameLayout (hheader : ∀ h, Live d opened h → AgreeOn d d' {h})
    (hroot : AgreeOn d d' (extent d rootDirSector)) :
    SameLayout d d' opened := by
  have hhead : ∀ h, Live d opened h → headerStart d' h = headerStart d h ∧
      headerLength d' h = headerLength d h := by
    intro h hh
    exact header_congr fun i hi => hheader h hh h rfl i hi
  refine ⟨fun h hh => (hhead h hh).1, fun h hh => (hhead h hh).2, ?_⟩
  intro k hk j hj
  have hfit := hi.rootEntries_fit
  have hofs : entrySize * k + j < sectorSize * bytesToSectors (headerLength d rootDirSector) := by
    simp only [entrySize, rootEntries] at hk hj hfit ⊢
    omega
  have hbyte := AgreeOn.data hroot hofs
  rw [rootSlot, rootSlot, Directory.slot, Directory.slot, (hhead _ live_root).1,
    Nat.add_assoc, hbyte]

/-- A change of the data of a live inode other than the root directory keeps the layout. -/
theorem DiskInv.sameLayout_of_data (hg : Live d opened g) (hne : g ≠ rootDirSector)
    (ha : AgreeOn d d' (extent d g)ᶜ) : SameLayout d d' opened := by
  apply hi.sameLayout
  · intro h hh
    apply ha.mono
    rintro x rfl
    exact hi.header_not_data hh hg
  · apply ha.mono
    intro x hx hxg
    exact Set.disjoint_left.1 (hi.disjoint _ _ live_root hg hne.symm) (extent_subset hx)
      (extent_subset hxg)

/-- The invariant is kept when no inode becomes live and the live ones keep their headers and their
marked sectors. -/
theorem DiskInv.restrict (hhead : ∀ h, Live d opened h → headerStart d' h = headerStart d h ∧
      headerLength d' h = headerLength d h) (hbound : ∀ k h, Bound d' k h → Bound d k h)
    (hname : ∀ k < rootEntries, ∀ name, EntryFor (rootSlot d' k) name →
      EntryFor (rootSlot d k) name)
    (hopened : ∀ h ∈ opened', Live d opened h)
    (hused : ∀ h, Live d' opened' h → owned d h ⊆ usedSectors m' cap) :
    DiskInv d' m' cap opened' := by
  have hlive : ∀ h, Live d' opened' h → Live d opened h := by
    rintro h (hh | hh | ⟨k, hb⟩ | ho)
    · exact .inl hh
    · exact .inr (.inl hh)
    · exact live_bound (hbound k h hb)
    · exact hopened h ho
  constructor
  case placed =>
    intro h hh
    exact (hi.placed h (hlive h hh)).congr (hhead h (hlive h hh)) (hused h hh)
  case disjoint =>
    intro h g hh hg hne
    rw [owned_congr (hhead h (hlive h hh)), owned_congr (hhead g (hlive g hg))]
    exact hi.disjoint h g (hlive h hh) (hlive g hg) hne
  case rootLength => rw [(hhead _ live_root).2, hi.rootLength]
  case mapLength => rw [(hhead _ live_map).2, hi.mapLength]
  case bound_ne => exact fun k h hb => hi.bound_ne k h (hbound k h hb)
  case bound_inj => exact fun k k' h hb hb' => hi.bound_inj k k' h (hbound k h hb) (hbound k' h hb')
  case name_inj =>
    intro k k' name hk hk' he he'
    exact hi.name_inj k k' name hk hk' (hname k hk name he) (hname k' hk' name he')

/-- The same layout keeps the invariant, as long as the owned sectors stay marked. -/
theorem DiskInv.of_same (hs : SameLayout d d' opened)
    (hused : ∀ h, Live d opened h → owned d h ⊆ usedSectors m' cap) : DiskInv d' m' cap opened :=
  hi.restrict (fun h hh => ⟨hs.start h hh, hs.length h hh⟩) (fun _ _ hb => hs.bound_iff.1 hb)
    (fun _ hk _ he => (hs.entryFor_iff hk).1 he) (fun _ ho => live_opened ho)
    (fun h hh => hused h (hs.live_iff.1 hh))

/-- Opening live inodes and closing inodes keeps the invariant. -/
theorem DiskInv.reopen (hopened : ∀ h ∈ opened', Live d opened h) :
    DiskInv d m cap opened' := by
  have hlive : ∀ h, Live d opened' h → Live d opened h := by
    rintro h (hh | hh | hb | ho)
    · exact .inl hh
    · exact .inr (.inl hh)
    · exact .inr (.inr (.inl hb))
    · exact hopened h ho
  exact hi.restrict (fun _ _ => ⟨rfl, rfl⟩) (fun _ _ hb => hb) (fun _ _ _ he => he) hopened
    (fun h hh => (hi.placed h (hlive h hh)).used)

end

/-! ## Changes of an entry -/

/-- The disk with entry `k` of the root directory overwritten. -/
def writeEntry (d : Bytes) (k : Nat) (e : Nat → UInt8) : Bytes :=
  patch d (sectorSize * headerStart d rootDirSector + entrySize * k) entrySize e

section

variable (hi : DiskInv d m cap opened) (hk : k < rootEntries)
include hi hk

/-- Overwriting an entry changes the data of the root directory only. -/
theorem DiskInv.writeEntry_agree (e : Nat → UInt8) :
    AgreeOn d (writeEntry d k e) (extent d rootDirSector)ᶜ := by
  have hfit := hi.rootEntries_fit
  apply agreeOn_patch (c := bytesToSectors (headerLength d rootDirSector))
  · simp only [entrySize, rootEntries] at hk hfit ⊢
    omega
  · intro x hx
    by_contra hne
    exact hx ⟨by omega, by omega⟩

theorem DiskInv.writeEntry_header (e : Nat → UInt8) (hg : g ∉ extent d rootDirSector) :
    headerStart (writeEntry d k e) g = headerStart d g ∧
      headerLength (writeEntry d k e) g = headerLength d g :=
  header_congr fun i hlt => hi.writeEntry_agree hk e g hg i hlt

/-- The entries after entry `k` is overwritten. -/
theorem DiskInv.writeEntry_slot (e : Nat → UInt8) {j : Nat} (hj : j < entrySize) :
    rootSlot (writeEntry d k e) k' j = if k' = k then e j else rootSlot d k' j := by
  have hstart := (hi.writeEntry_header hk e (hi.header_not_data live_root live_root)).1
  rw [rootSlot, rootSlot, slot, slot, hstart, writeEntry]
  by_cases hkk : k' = k
  · subst hkk
    rw [if_pos rfl, patch_inside (by omega) (by omega), Nat.add_sub_cancel_left]
  · rw [if_neg hkk]
    apply patch_outside
    simp only [entrySize] at *
    omega

theorem DiskInv.writeEntry_bound :
    Bound (writeEntry d k e) k' h ↔
      if k' = k then entryInUse e = true ∧ entrySector e = h else Bound d k' h := by
  by_cases hkk : k' = k
  · subst hkk
    have hslot : ∀ j < entrySize, rootSlot (writeEntry d k' e) k' j = e j := by
      intro j hj
      rw [hi.writeEntry_slot hk e hj, if_pos rfl]
    rw [if_pos rfl, Bound, entryInUse_congr hslot, entrySector_congr hslot]
    exact and_iff_right hk
  · have hslot : ∀ j < entrySize, rootSlot (writeEntry d k e) k' j = rootSlot d k' j := by
      intro j hj
      rw [hi.writeEntry_slot hk e hj, if_neg hkk]
    rw [if_neg hkk, Bound, Bound, entryInUse_congr hslot, entrySector_congr hslot]

theorem DiskInv.writeEntry_entryFor :
    EntryFor (rootSlot (writeEntry d k e) k') name ↔
      if k' = k then EntryFor e name else EntryFor (rootSlot d k') name := by
  have hslot : ∀ j < entrySize, rootSlot (writeEntry d k e) k' j =
      (if k' = k then e else rootSlot d k') j := by
    intro j hj
    rw [hi.writeEntry_slot hk e hj]
    split <;> rfl
  rw [EntryFor, entryInUse_congr hslot, entryName_congr hslot]
  split <;> rfl

/-- Freeing an entry keeps the invariant. -/
theorem DiskInv.unbind (he : entryInUse e = false) : DiskInv (writeEntry d k e) m cap opened := by
  have hbound : ∀ k' h, Bound (writeEntry d k e) k' h → Bound d k' h := by
    intro k' h hb
    rw [hi.writeEntry_bound hk] at hb
    by_cases hkk : k' = k
    · rw [if_pos hkk, he] at hb
      exact absurd hb.1 Bool.false_ne_true
    · rwa [if_neg hkk] at hb
  apply hi.restrict _ hbound
  · intro k' _ name hfor
    rw [hi.writeEntry_entryFor hk] at hfor
    by_cases hkk : k' = k
    · rw [if_pos hkk, EntryFor, he] at hfor
      exact absurd hfor.1 Bool.false_ne_true
    · rwa [if_neg hkk] at hfor
  · exact fun h ho => live_opened ho
  · rintro h (hh | hh | ⟨k', hb⟩ | ho)
    · exact (hi.placed h (.inl hh)).used
    · exact (hi.placed h (.inr (.inl hh))).used
    · exact (hi.placed h (live_bound (hbound k' h hb))).used
    · exact (hi.placed h (live_opened ho)).used
  · exact fun g hg => hi.writeEntry_header hk e (hi.header_not_data hg live_root)

end

/-- The inode in sector `h` is placed on sectors that no live inode owns. -/
structure Reserved (d : Bytes) (m : Bitmap) (cap : Nat) (opened : Set Nat) (h : Nat) : Prop where
  placed : Placed d m cap h
  disjoint : ∀ g, Live d opened g → Disjoint (owned d h) (owned d g)

theorem Reserved.not_live (hr : Reserved d m cap opened h) : ¬ Live d opened h := by
  intro hlive
  exact Set.disjoint_left.1 (hr.disjoint h hlive) mem_owned mem_owned

theorem Reserved.not_data (hr : Reserved d m cap opened h) (hg : Live d opened g) :
    h ∉ extent d g :=
  fun hmem => Set.disjoint_left.1 (hr.disjoint g hg) mem_owned (extent_subset hmem)

/-- Naming a reserved inode in a free entry, under a name that is not taken, keeps the invariant. -/
theorem DiskInv.bind (hi : DiskInv d m cap opened) (hk : k < rootEntries)
    (hr : Reserved d m cap opened h) (hsector : entrySector e = h)
    (hname : entryName e = name.bytes) (hfree : ∀ j < rootEntries, ¬ EntryFor (rootSlot d j) name) :
    DiskInv (writeEntry d k e) m cap opened := by
  have hbound : ∀ k' g, Bound (writeEntry d k e) k' g → k' = k ∧ g = h ∨ k' ≠ k ∧ Bound d k' g := by
    intro k' g hb
    rw [hi.writeEntry_bound hk] at hb
    by_cases hkk : k' = k
    · rw [if_pos hkk] at hb
      exact .inl ⟨hkk, hb.2.symm.trans hsector⟩
    · rw [if_neg hkk] at hb
      exact .inr ⟨hkk, hb⟩
  -- the live inodes are those of before and the new one, all with their old headers
  have hlive : ∀ g, Live (writeEntry d k e) opened g → g = h ∨ Live d opened g := by
    rintro g (hg | hg | ⟨k', hb⟩ | ho)
    · exact .inr (.inl hg)
    · exact .inr (.inr (.inl hg))
    · rcases hbound k' g hb with ⟨-, hgh⟩ | ⟨-, hb⟩
      · exact .inl hgh
      · exact .inr (live_bound hb)
    · exact .inr (live_opened ho)
  have hhead : ∀ g, g = h ∨ Live d opened g → headerStart (writeEntry d k e) g = headerStart d g ∧
      headerLength (writeEntry d k e) g = headerLength d g := by
    intro g hg
    apply hi.writeEntry_header hk
    rcases hg with rfl | hg
    · exact hr.not_data live_root
    · exact hi.header_not_data hg live_root
  constructor
  case placed =>
    intro g hg
    have hg' := hlive g hg
    have hp : Placed d m cap g := by
      rcases hg' with rfl | hg'
      · exact hr.placed
      · exact hi.placed g hg'
    exact hp.congr (hhead g hg') hp.used
  case disjoint =>
    intro g g' hg hg' hne
    rw [owned_congr (hhead g (hlive g hg)), owned_congr (hhead g' (hlive g' hg'))]
    rcases hlive g hg with rfl | hold
    · rcases hlive g' hg' with rfl | hold'
      · exact absurd rfl hne
      · exact hr.disjoint g' hold'
    · rcases hlive g' hg' with rfl | hold'
      · exact (hr.disjoint g hold).symm
      · exact hi.disjoint g g' hold hold' hne
  case rootLength => rw [(hhead _ (.inr live_root)).2, hi.rootLength]
  case mapLength => rw [(hhead _ (.inr live_map)).2, hi.mapLength]
  case bound_ne =>
    intro k' g hb
    rcases hbound k' g hb with ⟨-, rfl⟩ | ⟨-, hb⟩
    · exact ⟨fun e => hr.not_live (e ▸ live_map), fun e => hr.not_live (e ▸ live_root)⟩
    · exact hi.bound_ne k' g hb
  case bound_inj =>
    intro k1 k2 g hb1 hb2
    rcases hbound k1 g hb1 with ⟨e1, hg⟩ | ⟨-, hb1⟩
    · rcases hbound k2 g hb2 with ⟨e2, -⟩ | ⟨-, hb2⟩
      · rw [e1, e2]
      · exact absurd (live_bound hb2) (hg ▸ hr.not_live)
    · rcases hbound k2 g hb2 with ⟨-, hg⟩ | ⟨-, hb2⟩
      · exact absurd (live_bound hb1) (hg ▸ hr.not_live)
      · exact hi.bound_inj k1 k2 g hb1 hb2
  case name_inj =>
    intro k1 k2 name' h1 h2 he1 he2
    rw [hi.writeEntry_entryFor hk] at he1 he2
    -- an old entry for the new name would have been found
    have hclash : ∀ j < rootEntries, EntryFor e name' → ¬ EntryFor (rootSlot d j) name' := by
      intro j hj henew hold
      have hsame : name'.bytes = name.bytes := henew.2.symm.trans hname
      exact hfree j hj ⟨hold.1, hold.2.trans hsame⟩
    by_cases e1 : k1 = k
    · by_cases e2 : k2 = k
      · rw [e1, e2]
      · rw [if_pos e1] at he1
        rw [if_neg e2] at he2
        exact absurd he2 (hclash k2 h2 he1)
    · by_cases e2 : k2 = k
      · rw [if_neg e1] at he1
        rw [if_pos e2] at he2
        exact absurd he1 (hclash k1 h1 he2)
      · rw [if_neg e1] at he1
        rw [if_neg e2] at he2
        exact hi.name_inj k1 k2 name' h1 h2 he1 he2

end Inv

end Pintos.Filesys.Layout
