import Pintos.Threads.MapRefinement

/-!
# Accessed and dirty bits

`pml4_set_dirty` and `pml4_set_accessed` set or clear one flag of a leaf entry. Setting joins the
flag to the 64-bit entry; clearing masks the entry with `~(uint32_t) flag`, whose upper half is
zero when it is widened. So a call touches nothing but its flag exactly when it sets the flag or
the entry fits in 32 bits (`setBits_touchOnly_iff`); a frame at 4 GB or above loses its upper
address bits when a flag of its entry is cleared (`clearDirty_moves_page`).
-/

set_option autoImplicit false

namespace Pintos.Threads.EntryBits

open Lib.StateExcept Lib.ByteMemory Lib.Runs
open Vaddr Palloc Mmu
open PageTables PageWalk PageMap
open Isolation (firstMap)

/-! ## One flag of an entry -/

/-- The entry `e` after its flag `bit` has been set to `value`. -/
def withBit (bit e : Nat) (value : Bool) : Nat :=
  if value then e ||| bit else e &&& (2 ^ 32 - 1 - bit)

variable {k e va : Nat}

/-- The mask has the bits below 32 but the flag. -/
theorem testBit_mask (hk : k < 12) (n : Nat) :
    (2 ^ 32 - 1 - 2 ^ k).testBit n = (decide (n < 32) && decide (n ≠ k)) := by
  have hxor : 2 ^ 32 - 1 - 2 ^ k = (2 ^ 32 - 1) ^^^ 2 ^ k := by
    interval_cases k <;> decide
  rw [hxor, Nat.testBit_xor, Nat.testBit_two_pow_sub_one, Nat.testBit_two_pow]
  by_cases hnk : k = n
  · subst hnk
    have h32 : k < 32 := by omega
    simp [h32]
  · simp [hnk, Ne.symm hnk]

/-- Exactly the flag changes, when it is set or when the entry has no bits above 32. -/
theorem testBit_withBit (hk : k < 12) {value : Bool} (h : value = true ∨ e < 2 ^ 32) (n : Nat) :
    (withBit (2 ^ k) e value).testBit n = if n = k then value else e.testBit n := by
  cases value with
  | true =>
    rw [withBit, if_pos rfl, Nat.testBit_or, Nat.testBit_two_pow]
    by_cases hn : n = k
    · simp [hn]
    · simp [hn, Ne.symm hn]
  | false =>
    have he : e < 2 ^ 32 := by
      rcases h with h | h
      · cases h
      · exact h
    rw [withBit, if_neg Bool.false_ne_true, Nat.testBit_and, testBit_mask hk]
    by_cases hn : n = k
    · simp [hn]
    · by_cases h32 : n < 32
      · simp [hn, h32]
      · have hhigh : e.testBit n = false :=
          Nat.testBit_lt_two_pow (lt_of_lt_of_le he (Nat.pow_le_pow_right (by norm_num) (by omega)))
        simp [hn, hhigh]

/-- Clearing a flag of an entry of 2 ^ 32 or more changes another bit. -/
theorem exists_lost_bit (hk : k < 12) (he : 2 ^ 32 ≤ e) :
    ∃ n, n ≠ k ∧ (withBit (2 ^ k) e false).testBit n ≠ e.testBit n := by
  obtain ⟨n, hn, hbit⟩ := Nat.exists_ge_and_testBit_of_ge_two_pow he
  refine ⟨n, by omega, ?_⟩
  rw [withBit, if_neg Bool.false_ne_true, Nat.testBit_and, testBit_mask hk, hbit]
  simp [hn]

theorem withBit_lt (hk : k < 12) (he : e < 2 ^ 64) (value : Bool) :
    withBit (2 ^ k) e value < 2 ^ 64 := by
  cases value with
  | true =>
    exact Nat.or_lt_two_pow he (Nat.pow_lt_pow_right (by norm_num) (by omega))
  | false =>
    exact lt_of_le_of_lt Nat.and_le_left he

/-- Entries that differ in one flag other than the present bit name the same frame. -/
theorem mapped_congr {e' : Nat} (hk : k < 12) (hk0 : k ≠ 0)
    (h : ∀ n, n ≠ k → e'.testBit n = e.testBit n) (va : Nat) : mapped e' va = mapped e va := by
  have hp : e' &&& pteP = e &&& pteP := by
    have hbit := h 0 (Ne.symm hk0)
    rw [Nat.testBit_zero, Nat.testBit_zero, decide_eq_decide] at hbit
    rw [and_pteP, and_pteP]
    omega
  have ha : pteAddr e' = pteAddr e := by
    apply Nat.eq_of_testBit_eq
    intro n
    rw [pteAddr, pteAddr, Nat.testBit_and, Nat.testBit_and]
    by_cases hn : n = k
    · -- the flags are not part of the address
      have hlow : Nat.testBit 0xfffffffffffff000 n = false := by
        subst hn
        interval_cases n <;> decide
      rw [hlow, Bool.and_false, Bool.and_false]
    · rw [h n hn]
  rw [mapped, mapped, hp, ha]

/-! ## The calls -/

/-- The machine after the flag `bit` of the leaf entry for `va` has been set to `value`; without a
leaf entry nothing changes. -/
def setLeafBit (bit : Nat) (s : Machine) (r : Frame) (va : Nat) (value : Bool) : Machine :=
  match leafOf s.mem 3 r va with
  | some g => storeLeaf s g (indexAt 0 va) (withBit bit (entry s.mem g (indexAt 0 va)) value)
  | none => s

section Calls

variable {own : Frame → Option Label} {s : Machine} {r : Frame} {o : Option Nat}

section

variable (ht : Tables own s) (hr : own r = some ⟨o, 3, 0⟩)
include ht hr

theorem wp_pml4TestBit (bit va : Nat) (Q : Bool → Machine → Prop) :
    wp (pml4TestBit bit (kva r) va) s Q ↔
      Q (decide (translate s.mem 3 r (va % 2 ^ 48) &&& bit ≠ 0)) s := by
  rw [pml4TestBit, wp_bind, pml4eWalk_mod, pml4eWalk_readsLeaf own s r o _ ht (root_key hr va)]
  cases hl : leafOf s.mem 3 r (va % 2 ^ 48) with
  | none =>
    rw [translate_of_leafOf_none hl]
    simp
  | some g =>
    rw [translate_of_leafOf_some hl]
    simp only [Option.map_some, wp_bind, wp_read64, wp_pure]
    rfl

theorem wp_pml4SetBit (bit va : Nat) (value : Bool) (Q : Unit → Machine → Prop) :
    wp (pml4SetBit bit (kva r) va value) s Q ↔ Q () (setLeafBit bit s r (va % 2 ^ 48) value) := by
  rw [pml4SetBit, wp_bind, pml4eWalk_mod, pml4eWalk_readsLeaf own s r o _ ht (root_key hr va),
    setLeafBit]
  cases hl : leafOf s.mem 3 r (va % 2 ^ 48) with
  | none => simp
  | some g =>
    simp only [Option.map_some, wp_bind, wp_read64, wp_write64, wp_vtop_kva, wp_pure]
    rfl

/-- The call leaves the tables as they are, their leaf entries apart. -/
theorem setLeafBit_tables (bit va : Nat) (value : Bool) :
    Tables own (setLeafBit bit s r (va % 2 ^ 48) value) := by
  rw [setLeafBit]
  cases hl : leafOf s.mem 3 r (va % 2 ^ 48) with
  | none => exact ht
  | some g =>
    obtain ⟨o', hg, -⟩ := ht.leafOf_label (by omega) (root_key hr va) hl
    exact storeLeaf_tables ht hg (indexAt_lt _ _)

/-- The call replaces the leaf entry of the one page. -/
theorem setLeafBit_translate (hk : k < 12) (va va' : Nat) (value : Bool) :
    translate (setLeafBit (2 ^ k) s r (va % 2 ^ 48) value).mem 3 r (va' % 2 ^ 48) =
      if va' % 2 ^ 48 / 4096 = va % 2 ^ 48 / 4096 ∧ leafOf s.mem 3 r (va % 2 ^ 48) ≠ none then
        withBit (2 ^ k) (translate s.mem 3 r (va % 2 ^ 48)) value
      else translate s.mem 3 r (va' % 2 ^ 48) := by
  have hlt : ∀ x : Nat, x % 2 ^ 48 < 2 ^ 48 := fun x => Nat.mod_lt _ (by norm_num)
  rw [setLeafBit]
  cases hl : leafOf s.mem 3 r (va % 2 ^ 48) with
  | none => simp
  | some g =>
    rw [translate_of_leafOf_some hl]
    have hst := stored_of_storeLeaf (v := withBit (2 ^ k) (entry s.mem g (indexAt 0 (va % 2 ^ 48)))
      value) ht hr (hlt va) hl
    rw [hst.translate_self hr (hlt va'), Nat.mod_eq_of_lt (withBit_lt hk (entry_lt _ _ _) value)]
    simp

end

end Calls

/-! ## What a call touches -/

/-- The page of the 48-bit address that a walk for `va` uses. -/
def pageOf (va : Nat) : Nat := va % 2 ^ 48 / 4096

/-- Between `s` and `s'` nothing but the flag `bit` of the leaf entry for `va` has changed: no bit
of another entry and no other bit of this one, so every address has the same frame as before; the
flag reads as `value` and the other flags as before. -/
structure TouchesOnly (bit : Nat) (r : Frame) (va : Nat) (value : Bool) (s s' : Machine) :
    Prop where
  entries : ∀ (f : Frame) (i n : Nat), i < 512 →
    (entry s'.mem f i).testBit n ≠ (entry s.mem f i).testBit n →
      result (pml4eWalk (kva r) va false) s = .ok (some (kva f + 8 * i)) ∧ 2 ^ n = bit
  pages : ∀ uaddr, result (pml4GetPage (kva r) uaddr) s' = result (pml4GetPage (kva r) uaddr) s
  last : ∀ va', pageOf va' = pageOf va → result (pml4eWalk (kva r) va false) s ≠ .ok none →
    result (pml4TestBit bit (kva r) va') s' = .ok value
  other : ∀ bit' va', bit' = pteA ∨ bit' = pteD → bit' ≠ bit ∨ pageOf va' ≠ pageOf va →
    result (pml4TestBit bit' (kva r) va') s' = result (pml4TestBit bit' (kva r) va') s

/-- The leaf entry for `va`, if there is one, is below `2 ^ 32`. -/
def EntryBelow4G (r : Frame) (va : Nat) (s : Machine) : Prop :=
  ∀ pte, result (pml4eWalk (kva r) va false) s = .ok (some pte) → readLE s.mem 8 pte < 2 ^ 32

section Touches

variable {own : Frame → Option Label} {s : Machine} {r : Frame} {o : Option Nat}

theorem result_pml4TestBit (ht : Tables own s) (hr : own r = some ⟨o, 3, 0⟩) (bit va : Nat) :
    result (pml4TestBit bit (kva r) va) s =
      .ok (decide (translate s.mem 3 r (va % 2 ^ 48) &&& bit ≠ 0)) :=
  result_of_wp (Q := fun _ => True) ((wp_pml4TestBit ht hr bit va _).2 ⟨rfl, trivial⟩)

/-- `pml4_get_page` depends on the machine through the translation only. -/
theorem result_pml4GetPage_congr {s' : Machine} (ht : Tables own s) (ht' : Tables own s')
    (hr : own r = some ⟨o, 3, 0⟩) {uaddr : Nat}
    (h : isUserVaddr uaddr →
      mapped (translate s'.mem 3 r uaddr) uaddr = mapped (translate s.mem 3 r uaddr) uaddr) :
    result (pml4GetPage (kva r) uaddr) s' = result (pml4GetPage (kva r) uaddr) s := by
  by_cases hu : isUserVaddr uaddr
  · rw [result, result, pml4GetPage_eq ht' hr hu, pml4GetPage_eq ht hr hu, h hu]
    rfl
  · simp only [result, pml4GetPage, check, hu, if_false]
    rfl

/-- A flag other than bit `k` is a flag that `withBit` leaves alone. -/
theorem and_flag_congr {k' e' : Nat} (hne : k' ≠ k) (h : ∀ n, n ≠ k → e'.testBit n = e.testBit n) :
    (e' &&& 2 ^ k' ≠ 0) = (e &&& 2 ^ k' ≠ 0) := by
  rw [Nat.and_two_pow, Nat.and_two_pow, h k' hne]

theorem and_flag_self : decide (e &&& 2 ^ k ≠ 0) = e.testBit k := by
  rw [Nat.and_two_pow]
  cases e.testBit k <;> simp

/-- The leaf entry that is stored differs from the old one in the flag only. -/
theorem touchesOnly_setLeafBit (ht : Tables own s) (hr : own r = some ⟨o, 3, 0⟩) (hk : k < 12)
    (hk0 : k ≠ 0) {value : Bool} (h : value = true ∨ translate s.mem 3 r (va % 2 ^ 48) < 2 ^ 32) :
    TouchesOnly (2 ^ k) r va value s (setLeafBit (2 ^ k) s r (va % 2 ^ 48) value) := by
  have ht' := setLeafBit_tables ht hr (2 ^ k) va value
  have hbit := testBit_withBit hk h
  have htr := setLeafBit_translate ht hr hk va
  refine ⟨?_, ?_, ?_, ?_⟩
  · intro f i n hi hne
    rw [result_pml4eWalk ht hr]
    rw [setLeafBit] at hne
    cases hl : leafOf s.mem 3 r (va % 2 ^ 48) with
    | none =>
      rw [hl] at hne
      exact absurd rfl hne
    | some g =>
      rw [hl] at hne
      rw [translate_of_leafOf_some hl] at hbit
      by_cases hgi : f = g ∧ i = indexAt 0 (va % 2 ^ 48)
      · obtain ⟨rfl, rfl⟩ := hgi
        refine ⟨rfl, ?_⟩
        -- the stored entry is the old one up to the flag
        by_contra hnk
        have hn : n ≠ k := fun e => hnk (by rw [e])
        apply hne
        dsimp only [storeLeaf]
        rw [entry_write_same, Nat.mod_eq_of_lt (withBit_lt hk (entry_lt _ _ _) value), hbit n,
          if_neg hn]
      · refine absurd ?_ hne
        dsimp only [storeLeaf]
        rw [entry_write_other (indexAt_lt _ _) hi]
        by_cases hfg : f = g
        · exact .inr fun hii => hgi ⟨hfg, hii⟩
        · exact .inl hfg
  · intro uaddr
    apply result_pml4GetPage_congr ht ht' hr
    intro hu
    have hlow : uaddr % 2 ^ 48 = uaddr := Nat.mod_eq_of_lt (Isolation.user_lt hu)
    have htru := htr uaddr value
    rw [hlow] at htru
    rw [htru]
    split_ifs with hpg
    · rw [translate_same_page hpg.1]
      exact mapped_congr hk hk0 (fun n hn => (hbit n).trans (if_neg hn)) uaddr
    · rfl
  · intro va' hpg hleaf
    rw [result_pml4eWalk ht hr] at hleaf
    have hsome : leafOf s.mem 3 r (va % 2 ^ 48) ≠ none := by
      intro hnone
      rw [hnone] at hleaf
      exact hleaf rfl
    rw [result_pml4TestBit ht' hr, htr va' value, if_pos ⟨hpg, hsome⟩, and_flag_self, hbit k,
      if_pos rfl]
  · intro bit' va' hbit' hother
    rw [result_pml4TestBit ht' hr, result_pml4TestBit ht hr, htr va' value]
    split_ifs with hpg
    · -- the same page, so the flag is another one
      obtain ⟨k', rfl⟩ : ∃ k', bit' = 2 ^ k' := by
        rcases hbit' with rfl | rfl
        · exact ⟨5, rfl⟩
        · exact ⟨6, rfl⟩
      have hne : k' ≠ k := by
        rintro rfl
        rcases hother with h' | h'
        · exact h' rfl
        · exact h' hpg.1
      have hflag := and_flag_congr hne fun n hn => (hbit n).trans (if_neg hn)
      rw [translate_same_page hpg.1]
      simp only [hflag]
    · rfl

/-- Masking an entry of `2 ^ 32` or more changes a bit that is not the flag. -/
theorem not_touchesOnly_clear (hk : k < 12) (h : 2 ^ 32 ≤ translate s.mem 3 r (va % 2 ^ 48)) :
    ¬ TouchesOnly (2 ^ k) r va false s (setLeafBit (2 ^ k) s r (va % 2 ^ 48) false) := by
  intro htouch
  rw [setLeafBit] at htouch
  cases hl : leafOf s.mem 3 r (va % 2 ^ 48) with
  | none =>
    rw [translate_of_leafOf_none hl] at h
    omega
  | some g =>
    rw [translate_of_leafOf_some hl] at h
    rw [hl] at htouch
    obtain ⟨n, hn, hlost⟩ := exists_lost_bit hk h
    have hne : (entry (storeLeaf s g (indexAt 0 (va % 2 ^ 48))
        (withBit (2 ^ k) (entry s.mem g (indexAt 0 (va % 2 ^ 48))) false)).mem g
          (indexAt 0 (va % 2 ^ 48))).testBit n ≠
        (entry s.mem g (indexAt 0 (va % 2 ^ 48))).testBit n := by
      dsimp only [storeLeaf]
      rw [entry_write_same, Nat.mod_eq_of_lt (withBit_lt hk (entry_lt _ _ _) false)]
      exact hlost
    obtain ⟨-, hpow⟩ := htouch.entries g _ n (indexAt_lt _ _) hne
    exact hn (Nat.pow_right_injective le_rfl hpow)

theorem entryBelow4G_iff (ht : Tables own s) (hr : own r = some ⟨o, 3, 0⟩) (va : Nat) :
    EntryBelow4G r va s ↔ translate s.mem 3 r (va % 2 ^ 48) < 2 ^ 32 := by
  rw [EntryBelow4G, result_pml4eWalk ht hr]
  cases hl : leafOf s.mem 3 r (va % 2 ^ 48) with
  | none =>
    rw [translate_of_leafOf_none hl]
    exact ⟨fun _ => by norm_num, fun _ pte hpte => by cases hpte⟩
  | some g =>
    rw [translate_of_leafOf_some hl]
    constructor
    · intro h
      exact h _ rfl
    · rintro h pte hpte
      cases hpte
      exact h

/-- One flag: the call touches it only, exactly when it sets it or the entry fits in 32 bits. -/
theorem wp_pml4SetBit_touchesOnly_iff (ht : Tables own s) (hr : own r = some ⟨o, 3, 0⟩)
    (hk : k < 12) (hk0 : k ≠ 0) (va : Nat) (value : Bool) :
    wp (pml4SetBit (2 ^ k) (kva r) va value) s
        (fun _ s' => TouchesOnly (2 ^ k) r va value s s') ↔
      value = true ∨ EntryBelow4G r va s := by
  rw [wp_pml4SetBit ht hr, entryBelow4G_iff ht hr]
  constructor
  · intro htouch
    cases value with
    | true => exact .inl rfl
    | false =>
      by_contra hcon
      have hbig : 2 ^ 32 ≤ translate s.mem 3 r (va % 2 ^ 48) := by
        by_contra hlt
        exact hcon (.inr (not_le.1 hlt))
      exact not_touchesOnly_clear hk hbig htouch
  · exact touchesOnly_setLeafBit ht hr hk hk0

end Touches

/-- On every well-formed page map, `pml4_set_dirty` and `pml4_set_accessed` touch nothing but their
flag of the leaf entry of the address exactly when they set it or the entry is below `2 ^ 32`. -/
theorem setBits_touchOnly_iff {s : Machine} {r : Frame} (hmap : PageMapAt s r) (va : Nat)
    (value : Bool) :
    (wp (pml4SetDirty (kva r) va value) s (fun _ s' => TouchesOnly pteD r va value s s') ↔
      value = true ∨ EntryBelow4G r va s) ∧
    (wp (pml4SetAccessed (kva r) va value) s (fun _ s' => TouchesOnly pteA r va value s s') ↔
      value = true ∨ EntryBelow4G r va s) := by
  obtain ⟨own, ht, hr⟩ := hmap
  have hdirty := wp_pml4SetBit_touchesOnly_iff ht hr (k := 6) (by decide) (by decide) va value
  have haccessed := wp_pml4SetBit_touchesOnly_iff ht hr (k := 5) (by decide) (by decide) va value
  exact ⟨hdirty, haccessed⟩

/-- `EntryBelow4G` by evaluation. -/
theorem entryBelow4G_of_all {s : Machine} {r : Frame}
    (h : ((result (pml4eWalk (kva r) va false) s).toOption.all fun o =>
      o.all fun pte => decide (readLE s.mem 8 pte < 2 ^ 32)) = true) : EntryBelow4G r va s := by
  intro pte hpte
  rw [hpte] at h
  simpa only [Except.toOption, Option.all_some, decide_eq_true_eq] using h

/-- The world after the page at `0x400000` has been mapped to the frame at `kpage`. -/
def mapPage (kpage : Nat) : Option Isolation.World :=
  run Isolation.step Isolation.twoMaps [.setPage (kva firstMap) 0x400000 kpage true]

/-- The page is mapped to a frame below 4 GB. -/
def mappedLow : Isolation.World := (mapPage 0x8004009000).get (by decide +kernel)

/-- The page is mapped to the frame at 4 GB. -/
def mappedHigh : Isolation.World := (mapPage (kernBase + 2 ^ 32)).get (by decide +kernel)

/-- The dirty bit of a page in a frame below 4 GB is cleared. -/
theorem setBits_touchOnly_lowFrame :
    PageMapAt mappedLow.machine firstMap ∧ EntryBelow4G firstMap 0x400000 mappedLow.machine ∧
      wp (pml4SetDirty (kva firstMap) 0x400000 false) mappedLow.machine
        (fun _ s' => TouchesOnly pteD firstMap 0x400000 false mappedLow.machine s') := by
  have hrun : run Isolation.step Isolation.booted ([.create, .create] ++
      [.setPage (kva firstMap) 0x400000 0x8004009000 true]) = some mappedLow :=
    run_append_iff.2 ⟨_, Isolation.twoMaps_eq, (Option.some_get _).symm⟩
  have hmap := MapRefinement.pageMapAt_of_run (r := firstMap) Isolation.booted_eq hrun
    (by decide +kernel)
  have hbelow : EntryBelow4G firstMap 0x400000 mappedLow.machine :=
    entryBelow4G_of_all (by decide +kernel)
  exact ⟨hmap, hbelow, ((setBits_touchOnly_iff hmap 0x400000 false).1).2 (.inr hbelow)⟩

/-- When the dirty or the accessed bit of a page in the frame at 4 GB is cleared, the page is then
mapped to the frame at address 0. -/
theorem clearDirty_moves_page :
    (result (pml4GetPage (kva firstMap) 0x400000) mappedHigh.machine).toOption =
        some (some (kernBase + 2 ^ 32)) ∧
      (result (do pml4SetDirty (kva firstMap) 0x400000 false
                  pml4GetPage (kva firstMap) 0x400000) mappedHigh.machine).toOption =
        some (some kernBase) ∧
      (result (do pml4SetAccessed (kva firstMap) 0x400000 false
                  pml4GetPage (kva firstMap) 0x400000) mappedHigh.machine).toOption =
        some (some kernBase) := by
  refine ⟨?_, ?_, ?_⟩
  · decide +kernel
  · decide +kernel
  · decide +kernel

end Pintos.Threads.EntryBits
