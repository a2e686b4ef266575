import Pintos.Filesys.Directory

/-!
# Adding an entry when memory runs out

`inode_read_at` and `inode_write_at` need a bounce buffer for an entry of a directory, and return 0
when it cannot be allocated. To the loops of `lookup` and `dir_add` this looks like the end of the
directory: the check for a duplicate may miss an entry, and the search for a free entry may stop at
one that is in use. `dir_add` writes there if the allocation for the write succeeds again. `Misled`
says which allocations have to fail for which entries, and `dirAdd_safe_iff` that `dir_add` is right
otherwise.
-/

set_option autoImplicit false

namespace Pintos.Filesys.Directory

open Lib Lib.StateExcept Lib.ByteMemory LibKernel Filesys.State
open InodeIo

/-- `lookup` finds no entry for the name and takes the first `b` allocations: the last of them fails
and the others do not, or there is one for each entry and none fails. No entry that is read is for
the name. -/
def NotFound (s : Fs) (i : Inode) (n : Nat) (name : CString) (b : Nat) : Prop :=
  (∃ c < n, b = c + 1 ∧ failsAt s c = true ∧
    ∀ k < c, failsAt s k = false ∧ ¬ EntryFor (slot s.disk i.start k) name) ∨
  b = n ∧ ∀ k < n, failsAt s k = false ∧ ¬ EntryFor (slot s.disk i.start k) name

/-- After `b` allocations, the search stops at an entry in use: the entries up to this one are in
use, and the first allocation that fails is the one for it. The allocation for the write
succeeds. -/
def Overwrites (s : Fs) (i : Inode) (n b : Nat) : Prop :=
  ∃ p < n, (∀ k < p, failsAt s (b + k) = false) ∧
    (∀ k ≤ p, entryInUse (slot s.disk i.start k) = true) ∧
    failsAt s (b + p) = true ∧ failsAt s (b + p + 1) = false

/-- Some entry is in use for the name. After `b` allocations, the search stops all the same before
the end, at a free entry or one whose allocation fails, and the allocation for the write
succeeds. -/
def Duplicates (s : Fs) (i : Inode) (n : Nat) (name : CString) (b : Nat) : Prop :=
  (∃ m < n, EntryFor (slot s.disk i.start m) name) ∧
  ∃ p < n, (∀ k < p, failsAt s (b + k) = false ∧ entryInUse (slot s.disk i.start k) = true) ∧
    (failsAt s (b + p) = true ∨ entryInUse (slot s.disk i.start p) = false) ∧
    failsAt s (b + p + 1) = false

/-- The allocations that fail let `dir_add` write a valid name where it must not. -/
structure Misled (s : Fs) (i : Inode) (n : Nat) (name : CString) : Prop where
  valid : name.bytes ≠ [] ∧ name.bytes.length ≤ nameMax
  writable : i.denyWriteCnt = 0
  misled : ∃ b, NotFound s i n name b ∧ (Overwrites s i n b ∨ Duplicates s i n name b)

variable {k : Nat} {e : Nat → UInt8} {m : Nat}

/-! ## Where the loops stop -/

section Stops

variable {s : Fs} {i : Inode} {n : Nat} {name : CString} {b c p : Nat}

theorem goesOn_isFor : GoesOn s i (isFor name) 0 c ↔
    ∀ k < c, failsAt s k = false ∧ ¬ EntryFor (slot s.disk i.start k) name := by
  simp only [GoesOn, isFor_eq_false, Nat.zero_add]

/-- An entry for the name that is read is found. -/
theorem NotFound.elim (h : NotFound s i n name b) (hc : c < n) (hpast : GoesOn s i (isFor name) 0 c)
    (hfails : failsAt s c = false) (hfor : isFor name (slot s.disk i.start c) = true) : False := by
  simp only [NotFound, ← goesOn_isFor] at h
  rcases h with ⟨d, -, -, hd, hbefore⟩ | ⟨-, hall⟩
  · rw [← Nat.zero_add d] at hd
    obtain rfl := Nat.le_antisymm (hpast.le (Or.inl hd)) (hbefore.le (Or.inr hfor))
    rw [← Nat.zero_add c, hd] at hfails
    cases hfails
  · exact not_le.2 hc (hall.le (Or.inr hfor))

theorem NotFound.unique (h : NotFound s i n name b) (h' : NotFound s i n name c) : b = c := by
  simp only [NotFound, ← goesOn_isFor] at h h'
  have hstop : ∀ {x y}, GoesOn s i (isFor name) 0 x → failsAt s y = true → x ≤ y := fun hx hy =>
    hx.le (Or.inl ((congrArg _ (Nat.zero_add _)).trans hy))
  rcases h with ⟨x, hx, rfl, hxf, hxp⟩ | ⟨rfl, hp⟩
  · rcases h' with ⟨y, -, rfl, hyf, hyp⟩ | ⟨-, hp⟩
    · rw [Nat.le_antisymm (hstop hxp hyf) (hstop hyp hxf)]
    · exact absurd (hstop hp hxf) (not_le.2 hx)
  · rcases h' with ⟨y, hy, -, hyf, -⟩ | ⟨rfl, -⟩
    · exact absurd (hstop hp hyf) (not_le.2 hy)
    · rfl

/-- The search stops at entry `p`, and there the write goes wrong. -/
theorem harm_iff : Overwrites s i n b ∨ Duplicates s i n name b ↔
    ∃ p < n, GoesOn s i (fun e => !entryInUse e) b p ∧
      (failsAt s (b + p) = true ∨ (!entryInUse (slot s.disk i.start p)) = true) ∧
      failsAt s (b + p + 1) = false ∧
      (entryInUse (slot s.disk i.start p) = true ∨
        ∃ m < n, EntryFor (slot s.disk i.start m) name) := by
  simp only [GoesOn, Bool.not_eq_false', Bool.not_eq_true']
  constructor
  · rintro (⟨p, hp, hread, huse, hfails, hwrite⟩ | ⟨hfor, p, hp, hread, hstop, hwrite⟩)
    · exact ⟨p, hp, fun k hk => ⟨hread k hk, huse k hk.le⟩, Or.inl hfails, hwrite,
        Or.inl (huse p le_rfl)⟩
    · exact ⟨p, hp, hread, hstop, hwrite, Or.inr hfor⟩
  · rintro ⟨p, hp, hread, hstop, hwrite, huse | hfor⟩
    · refine Or.inl ⟨p, hp, fun k hk => (hread k hk).1, fun k hk => ?_,
        hstop.resolve_right ?_, hwrite⟩
      · rcases Nat.lt_or_eq_of_le hk with hlt | rfl
        · exact (hread k hlt).2
        · exact huse
      · rw [huse]
        exact Bool.false_ne_true.symm
    · exact Or.inr ⟨hfor, p, hp, hread, hstop, hwrite⟩

end Stops

/-- The disk after an entry is written. -/
def writeSlot (d : Bytes) (start k : Nat) (e : Nat → UInt8) : Bytes :=
  patch d (sectorSize * start + entrySize * k) entrySize e

section Add

variable {s : Fs} {i : Inode} {dir : Dir} {n : Nat} {name : CString} {sector : Nat} {d : Bytes}
  {start : Nat} {j : Nat}

theorem slot_writeSlot_self (hj : j < entrySize) :
    slot (writeSlot d start k e) start k j = e j := by
  rw [slot, writeSlot, patch_inside (by omega) (by omega)]
  congr 1
  omega

theorem slot_writeSlot_of_ne (hm : m ≠ k) (hj : j < entrySize) :
    slot (writeSlot d start k e) start m j = slot d start m j := by
  apply patch_outside
  simp only [entrySize] at hj ⊢
  omega

/-- What `dir_add` is to do: fill a free entry when no entry is in use for the name, or fail and
leave the directory as it is. -/
def AddSafe (d d' : Bytes) (start n : Nat) (name : CString) (sector : Nat) (added : Bool) : Prop :=
  (added = false ∧ ∀ m < n, ∀ j < entrySize, slot d' start m j = slot d start m j) ∨
  (added = true ∧ (∀ m < n, ¬ EntryFor (slot d start m) name) ∧
    ∃ k < n, entryInUse (slot d start k) = false ∧ EntryFor (slot d' start k) name ∧
      entrySector (slot d' start k) = sector ∧
      ∀ m < n, m ≠ k → ∀ j < entrySize, slot d' start m j = slot d start m j)

/-- Writing an entry is right exactly when the entry is free and no entry is in use for the name. -/
theorem addSafe_writeSlot_iff (hk : k < n) (hname : name.bytes.length ≤ nameMax)
    (hsector : sector < 2 ^ 32) :
    AddSafe d (writeSlot d start k (newEntry e name sector)) start n name sector true ↔
      entryInUse (slot d start k) = false ∧ ∀ m < n, ¬ EntryFor (slot d start m) name := by
  have hnew : ∀ j < entrySize, slot (writeSlot d start k (newEntry e name sector)) start k j =
      newEntry e name sector j := fun j hj => slot_writeSlot_self hj
  have hfor : EntryFor (slot (writeSlot d start k (newEntry e name sector)) start k) name := by
    rw [EntryFor, entryInUse_congr hnew, entryName_congr hnew]
    exact ⟨entryInUse_newEntry hname, entryName_newEntry hname⟩
  constructor
  · rintro (⟨hfalse, -⟩ | ⟨-, hunbound, m, hm, hfree, -, -, hothers⟩)
    · cases hfalse
    · -- the entry that was free is the one that is written: another would be for the name already
      have hmk : m = k := by
        by_contra hne
        have hsame := hothers k hk fun e => hne e.symm
        rw [EntryFor, entryInUse_congr hsame, entryName_congr hsame] at hfor
        exact hunbound k hk hfor
      rw [← hmk]
      exact ⟨hfree, hunbound⟩
  · rintro ⟨hfree, hunbound⟩
    refine Or.inr ⟨rfl, hunbound, k, hk, hfree, hfor, ?_, ?_⟩
    · rw [entrySector_congr hnew]
      exact entrySector_newEntry hsector
    · intro m _ hne j hj
      exact slot_writeSlot_of_ne hne hj

/-- Nothing is written. -/
theorem addSafe_unchanged_iff (h : ¬ Misled s i n name) (j : Nat) :
    AddSafe s.disk (skip s j).disk i.start n name sector false ↔ ¬ Misled s i n name :=
  iff_of_true (Or.inl ⟨rfl, fun _ _ _ _ => rfl⟩) h

/-- The search for a free entry and the write, after the check for the name. -/
theorem wp_fill {b : Nat} (hd : OpenDir s dir i n) (hsector : sector < 2 ^ 32)
    (hname : name.bytes ≠ [])
    (hlen : name.bytes.length ≤ nameMax) (hcheck : NotFound s i n name b) :
    wp (do
      let (_, ofs, e) ← scanDir dir fun e => !entryInUse e
      let written ← inodeWriteAt dir.inode (newEntry e name sector) entrySize ofs
      return decide (written = entrySize)) (skip s b)
      fun added s' => AddSafe s.disk s'.disk i.start n name sector added ↔ ¬ Misled s i n name := by
  rw [wp_bind]
  apply wp_scanDir (fun e e' h => by rw [entryInUse_congr h]) hd
  · -- the search has come to the end, where nothing is written
    intro hall e
    rw [wp_bind, wp_inodeWriteAt_end (hd.skip _).opened (Int.natCast_nonneg _)
      (Or.inr hd.length.le), wp_pure]
    refine addSafe_unchanged_iff (fun h => ?_) _
    obtain ⟨c, hc, hharm⟩ := h.misled
    obtain rfl := hc.unique hcheck
    obtain ⟨p, hp, -, hstop, -⟩ := harm_iff.1 hharm
    exact not_le.2 hp (hall.le hstop)
  · intro p hp hpast hstop e _
    obtain ⟨hlt, hcnt⟩ := hd.entry_lt hp
    rw [wp_bind]
    -- the entry at which the search stops is determined
    have hmisled : Misled s i n name ↔ i.denyWriteCnt = 0 ∧ failsAt s (b + p + 1) = false ∧
        (entryInUse (slot s.disk i.start p) = true ∨
          ∃ m < n, EntryFor (slot s.disk i.start m) name) := by
      constructor
      · rintro ⟨-, hdeny, c, hc, hharm⟩
        obtain rfl := hc.unique hcheck
        obtain ⟨q, -, hq, hqstop, hwrite, hbad⟩ := harm_iff.1 hharm
        obtain rfl := Nat.le_antisymm (hpast.le hqstop) (hq.le hstop)
        exact ⟨hdeny, hwrite, hbad⟩
      · rintro ⟨hdeny, hwrite, hbad⟩
        exact ⟨⟨hname, hlen⟩, hdeny, b, hcheck, harm_iff.2 ⟨p, hp, hpast, hstop, hwrite, hbad⟩⟩
    by_cases hdeny : i.denyWriteCnt = 0
    · rw [wp_inodeWriteAt_small (hd.skip _).opened (hd.skip _).onDisk
        (Int.natCast_nonneg _) hlt (by decide)
        (by decide) hdeny, hcnt, allocFails_skip, afterAlloc_skip]
      cases hwrite : failsAt s (b + p + 1) with
      | true =>
        rw [if_pos rfl, wp_pure]
        refine addSafe_unchanged_iff (fun h => ?_) _
        rw [hmisled, hwrite] at h
        cases h.2.1
      | false =>
        rw [if_neg Bool.false_ne_true, wp_pure, decide_eq_true rfl, hmisled]
        refine (addSafe_writeSlot_iff hp hlen hsector).trans ?_
        simp [hdeny, hwrite]
    · rw [wp_inodeWriteAt_denied (hd.skip _).opened hdeny, wp_pure]
      exact addSafe_unchanged_iff (fun h => hdeny h.writable) _

end Add

/-- When `dir_add` is safe. It returns whatever allocations fail, and it does what it is to do
unless they mislead it. -/
theorem dirAdd_safe_iff (s : Fs) (dir : Dir) (i : Inode) (n : Nat) (name : CString) (sector : Nat)
    (hd : OpenDir s dir i n) (hsector : sector < 2 ^ 32) :
    ∃ added s', dirAdd dir name sector s = .ok (added, s') ∧
      (AddSafe s.disk s'.disk i.start n name sector added ↔ ¬ Misled s i n name) := by
  have hadd : wp (dirAdd dir name sector) s fun added s' =>
      AddSafe s.disk s'.disk i.start n name sector added ↔ ¬ Misled s i n name := by
    rw [dirAdd, wp_ite]
    constructor
    · intro hinvalid
      rw [wp_pure]
      refine addSafe_unchanged_iff (fun h => ?_) 0
      exact hinvalid.elim h.valid.1 (not_lt.2 h.valid.2)
    · intro hvalid
      rw [not_or, not_lt] at hvalid
      rw [wp_bind, lookup, wp_bind]
      show wp (scanDir dir (isFor name)) (skip s 0) _
      apply wp_scanDir isFor_congr hd
      · intro hall e
        rw [wp_pure, Nat.zero_add]
        exact wp_fill hd hsector hvalid.1 hvalid.2 (Or.inr ⟨rfl, goesOn_isFor.1 hall⟩)
      · intro c hc hpast hstop e _
        rw [Nat.zero_add] at hstop ⊢
        rw [wp_pure]
        cases hfails : failsAt s c with
        | true =>
          exact wp_fill hd hsector hvalid.1 hvalid.2
            (Or.inl ⟨c, hc, rfl, hfails, goesOn_isFor.1 hpast⟩)
        | false =>
          rw [hfails] at hstop
          show wp (pure false) _ _
          rw [wp_pure]
          refine addSafe_unchanged_iff (fun h => ?_) _
          obtain ⟨b, hb, -⟩ := h.misled
          exact hb.elim hc hpast hfails (hstop.resolve_left Bool.false_ne_true)
  exact hadd

/-- A directory with two entries, in sector 3: the first is in use for the name `a`, the second
free. -/
def twoSlots (failures : List Bool) : Fs where
  disk := fun x => if x = 1536 then 9 else if x = 1540 then 97 else if x = 1555 then 1 else 0
  capacity := 8
  freeMap := Bitmap.create 8 fun _ => 0
  freeMapFile := none
  openInodes := [⟨7, 2, 1, false, 0, 3, 40⟩]
  files := []
  nextPtr := 8
  failures := failures

def nameB : CString := ⟨[98], by decide⟩

theorem openDir_twoSlots (failures : List Bool) :
    OpenDir (twoSlots failures) ⟨7, 0⟩ ⟨7, 2, 1, false, 0, 3, 40⟩ 2 := by
  refine ⟨rfl, rfl, ?_⟩
  intro k hk
  simp only [sectorSize] at hk
  simp only [Addressable, twoSlots]
  omega

/-- The check is cut short, and the search is not: the new entry goes to the free one. -/
theorem dirAdd_safe_iff_shortCheck :
    ∃ added s', dirAdd ⟨7, 0⟩ nameB 10 (twoSlots [true]) = .ok (added, s') ∧
      AddSafe (twoSlots [true]).disk s'.disk 3 2 nameB 10 added := by
  obtain ⟨added, s', hrun, hsafe⟩ := dirAdd_safe_iff (twoSlots [true]) ⟨7, 0⟩
    ⟨7, 2, 1, false, 0, 3, 40⟩ 2 nameB 10 (openDir_twoSlots _) (by norm_num)
  refine ⟨added, s', hrun, hsafe.2 ?_⟩
  rintro ⟨-, -, b, hb, hharm⟩
  obtain rfl : b = 1 :=
    hb.unique (Or.inl ⟨0, by decide, rfl, rfl, fun k hk => absurd hk (Nat.not_lt_zero k)⟩)
  -- every allocation of the search succeeds, and no entry is for the name
  rcases hharm with ⟨p, -, -, -, hfails, -⟩ | ⟨⟨m, hm, hfor⟩, -⟩
  · rw [failsAt, Nat.add_comm] at hfails
    cases hfails
  · have hnone : ∀ m < 2, ¬ (entryInUse (slot (twoSlots [true]).disk 3 m) = true ∧
        entryName (slot (twoSlots [true]).disk 3 m) = nameB.bytes) := by
      decide +kernel
    exact hnone m hm hfor

/-- Both loops are cut short at the first entry, and the write succeeds: the entry that was in use
for `a` is overwritten. -/
theorem dirAdd_overwrites :
    ∃ s', dirAdd ⟨7, 0⟩ nameB 10 (twoSlots [true, true]) = .ok (true, s') ∧
      entryInUse (slot (twoSlots [true, true]).disk 3 0) = true ∧
      entryName (slot (twoSlots [true, true]).disk 3 0) = [97] ∧
      entryName (slot s'.disk 3 0) = [98] ∧
      ¬ AddSafe (twoSlots [true, true]).disk s'.disk 3 2 nameB 10 true := by
  have hany : (dirAdd ⟨7, 0⟩ nameB 10 (twoSlots [true, true])).toOption.any (fun p =>
      p.1 && decide (entryName (slot p.2.disk 3 0) = [98])) = true := by
    decide +kernel
  obtain ⟨⟨added, s'⟩, hok, hname⟩ := exists_ok_of_any hany
  rw [Bool.and_eq_true, decide_eq_true_eq] at hname
  obtain ⟨hadded, hnew⟩ := hname
  have htrue : added = true := hadded
  subst htrue
  have huse : entryInUse (slot (twoSlots [true, true]).disk 3 0) = true := by decide +kernel
  have hold : entryName (slot (twoSlots [true, true]).disk 3 0) = [97] := by decide +kernel
  refine ⟨s', hok, huse, hold, hnew, ?_⟩
  rintro (⟨hfalse, -⟩ | ⟨-, -, k, -, hfree, -, -, hothers⟩)
  · cases hfalse
  · -- the entry that was free is not the first, so the first should be as it was
    have hk : 0 ≠ k := by
      rintro rfl
      cases hfree
    rw [entryName_congr (hothers 0 (by decide) hk), hold] at hnew
    cases hnew

end Pintos.Filesys.Directory
