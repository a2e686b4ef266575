import Pintos.Threads.PageWalk

/-!
# Page maps as functions of the address

One specification for each operation on a page map, in terms of `translate`. `pml4_set_page` either
fails without a trace or changes the translation at one leaf entry (`Stored`); `pml4_clear_page`
changes one leaf entry or nothing; `pml4_create` makes a map that translates as the base page map
does; `paging_init` makes a base page map without user translations.
-/

set_option autoImplicit false

namespace Pintos.Threads.PageMap

open Function Lib.StateExcept Lib.ByteMemory
open Vaddr Palloc Mmu
open PageTables PageWalk

/-! ## Storing a leaf entry -/

/-- The machine after `v` has been stored in entry `j` of the table `g`. -/
def storeLeaf (s : Machine) (g : Frame) (j v : Nat) : Machine :=
  { s with mem := writeLE s.mem 8 (kva g + 8 * j) v }

variable {f rb : Frame} {o' : Option Nat} {s : Machine} {i : Nat} {own : Frame → Option Label}

section StoreLeaf

variable {own : Frame → Option Label} {s : Machine} {g : Frame} {o : Option Nat} {k j v : Nat}
  {d k' : Nat}

/-- Tables above the leaves keep their entries. -/
theorem storeLeaf_entry (hg : own g = some ⟨o, 0, k⟩) (hj : j < 512)
    (hf : own f = some ⟨o', d + 1, k'⟩) (hi : i < 512) :
    entry (storeLeaf s g j v).mem f i = entry s.mem f i := by
  have hfg : f ≠ g := by
    rintro rfl
    rw [hg] at hf
    cases hf
  exact entry_write_other hj hi (.inl hfg)

section

variable (ht : Tables own s) (hg : own g = some ⟨o, 0, k⟩) (hj : j < 512)
include ht hg hj

theorem storeLeaf_tables :
    Tables own (storeLeaf s g j v) where
  used := ht.used
  child := by
    intro f o' d k' hf i hi
    rw [storeLeaf_entry hg hj hf hi]
    exact ht.child f o' d k' hf i hi

theorem storeLeaf_leafOf (va : Nat) :
    ∀ (d : Nat) (f : Frame) (o' : Option Nat) (k' : Nat), own f = some ⟨o', d, k'⟩ →
      leafOf (storeLeaf s g j v).mem d f va = leafOf s.mem d f va := by
  intro d
  induction d with
  | zero => exact fun f o' k' _ => rfl
  | succ d ih =>
    intro f o' k' hf
    rw [leafOf, leafOf, storeLeaf_entry hg hj hf (indexAt_lt _ _)]
    rcases ht.child f o' d k' hf _ (indexAt_lt (d + 1) va) with h0 | ⟨g', o'', hg', hown, -⟩
    · rw [h0]
      rfl
    · rw [hg']
      exact ih g' o'' _ hown

/-- The store is seen at the addresses whose leaf entry it is, and nowhere else. -/
theorem storeLeaf_translate (hf : own f = some ⟨o', d, k'⟩) (va : Nat) :
    translate (storeLeaf s g j v).mem d f va =
      if leafOf s.mem d f va = some g ∧ indexAt 0 va = j then v % 2 ^ 64
      else translate s.mem d f va := by
  have hleaf := storeLeaf_leafOf (v := v) ht hg hj va d f o' k' hf
  cases hl : leafOf s.mem d f va with
  | none =>
    rw [hl] at hleaf
    simp [translate_of_leafOf_none hl, translate_of_leafOf_none hleaf]
  | some h =>
    rw [hl] at hleaf
    rw [translate_of_leafOf_some hl, translate_of_leafOf_some hleaf]
    by_cases hhg : h = g ∧ indexAt 0 va = j
    · obtain ⟨rfl, rfl⟩ := hhg
      rw [if_pos ⟨rfl, rfl⟩]
      exact entry_write_same
    · rw [if_neg (by rintro ⟨h1, h2⟩; exact hhg ⟨Option.some.inj h1, h2⟩)]
      apply entry_write_other hj (indexAt_lt _ _)
      by_cases hh : h = g
      · exact .inr fun hji => hhg ⟨hh, hji⟩
      · exact .inl hh

end

end StoreLeaf

/-! ## Walk and store -/

/-- Between the machines the tables have grown along the way to `va` from the root `r`, and the
leaf entry for `va` has become `v`. -/
structure Stored (own own' : Frame → Option Label) (s s' : Machine) (r : Frame) (o : Option Nat)
    (va v : Nat) : Prop where
  tables : Tables own' s'
  keeps : ∀ f l, own f = some l → own' f = some l
  fresh : ∀ f l, own' f = some l → own f = some l ∨
    (s.used f = false ∧ Visits o 3 va l.owner ∧ l.depth ≤ 2)
  used : ∀ f, s.used f = true → s'.used f = true
  usedNew : ∀ f, s'.used f = true → s.used f = true ∨ ∃ l, own' f = some l
  pool : s'.poolOf = s.poolOf
  base : s'.basePml4 = s.basePml4
  page : ∀ f, s.used f = true → (∀ l, own f = some l → ¬ Visits o 3 va l.owner) →
    SamePage s.mem s'.mem f
  leaf : ∃ g o', leafOf s'.mem 3 r va = some g ∧ own' g = some ⟨o', 0, part 1 va⟩ ∧
    Visits o 3 va o' ∧ ∀ f o'', own f = some ⟨o'', 3, 0⟩ → ∀ va',
      translate s'.mem 3 f va' =
        if leafOf s'.mem 3 f va' = some g ∧ indexAt 0 va' = indexAt 0 va then v % 2 ^ 64
        else translate s.mem 3 f va'

section WalkStore

variable {own : Frame → Option Label} {s : Machine} {r : Frame} {o : Option Nat} {va v : Nat}
  {own' : Frame → Option Label} {s' : Machine} {g : Frame} {va' : Nat} {o'' : Option Nat}

theorem stored_of_grows (hr : own r = some ⟨o, 3, 0⟩) (ht : Tables own' s')
    (hg : Grows (Visits o 3 va) own own' s s') (hown : own' g = some ⟨o', 0, part 1 va⟩)
    (hv : Visits o 3 va o') (hleaf : leafOf s'.mem 3 r va = some g) :
    Stored own own' s (storeLeaf s' g (indexAt 0 va) v) r o va v := by
  have hj := indexAt_lt 0 va
  have hroot : ∀ f o'', own f = some ⟨o'', 3, 0⟩ → ∀ va',
      leafOf (storeLeaf s' g (indexAt 0 va) v).mem 3 f va' = leafOf s'.mem 3 f va' :=
    fun f o'' hf va' => storeLeaf_leafOf ht hown hj va' 3 f o'' 0 (hg.keeps f _ hf)
  refine ⟨storeLeaf_tables ht hown hj, hg.keeps, hg.fresh, hg.used, hg.usedNew, hg.pool, hg.base,
    ?_, g, o', (hroot r o hr va).trans hleaf, hown, hv, ?_⟩
  · intro f hf hno
    have hfg : f ≠ g := by
      rintro rfl
      rcases hg.fresh f _ hown with hl | ⟨hu, -, -⟩
      · exact hno _ hl hv
      · rw [hf] at hu
        cases hu
    exact (hg.page f hf hno).trans (samePage_write hj hfg)
  · intro f o'' hf va'
    rw [hroot f o'' hf va', storeLeaf_translate ht hown hj (hg.keeps f _ hf) va',
      hg.trans f _ hf va']

/-- Storing at the address that a walk with `create` returned. -/
theorem stored_of_walked (hr : own r = some ⟨o, 3, 0⟩) {pte : Nat}
    (h : Walked own s r o 3 va (some pte) s') :
    ∃ own', Stored own own' s { s' with mem := writeLE s'.mem 8 pte v } r o va v := by
  obtain ⟨own', g, o', rfl, ht, hg, hown, hv, hleaf⟩ := h
  exact ⟨own', stored_of_grows hr ht hg hown hv hleaf⟩

/-- Storing in an existing leaf entry. -/
theorem stored_of_storeLeaf (ht : Tables own s) (hr : own r = some ⟨o, 3, 0⟩) (hva : va < 2 ^ 48)
    (hleaf : leafOf s.mem 3 r va = some g) :
    Stored own own s (storeLeaf s g (indexAt 0 va) v) r o va v := by
  have hkey : part (3 + 1) va = 0 := Nat.div_eq_of_lt hva
  obtain ⟨o', hg, hv⟩ := ht.leafOf_label (by omega) (by rw [hkey]; exact hr) hleaf
  exact stored_of_grows hr ht (Grows.refl _ own s) hg hv hleaf

/-- Leaf entries are shared by the addresses of one page only. -/
theorem Stored.same_page (h : Stored own own' s s' r o va v) (hg : own' g = some ⟨o', 0, part 1 va⟩)
    (hf : own f = some ⟨o'', 3, 0⟩) (hva' : va' < 2 ^ 48) (hleaf : leafOf s'.mem 3 f va' = some g)
    (hidx : indexAt 0 va' = indexAt 0 va) :
    va' / 4096 = va / 4096 ∧ Visits o'' 3 va' o' := by
  have hkey : part (3 + 1) va' = 0 := Nat.div_eq_of_lt hva'
  have hf' : own' f = some ⟨o'', 3, part (3 + 1) va'⟩ := by
    rw [hkey]
    exact h.keeps f _ hf
  obtain ⟨o₁, hg₁, hv⟩ := h.tables.leafOf_label (by omega) hf' hleaf
  rw [hg] at hg₁
  simp only [Option.some.injEq, Label.mk.injEq, true_and] at hg₁
  obtain ⟨rfl, hpart⟩ := hg₁
  have hpage : part 0 va' = part 0 va := by rw [part_eq 0 va', part_eq 0 va, hpart, hidx]
  exact ⟨hpage, hv⟩

/-- Seen from the root that was walked, the translation changes at the one page. -/
theorem Stored.translate_self (h : Stored own own' s s' r o va v) (hr : own r = some ⟨o, 3, 0⟩)
    (hva' : va' < 2 ^ 48) :
    translate s'.mem 3 r va' =
      if va' / 4096 = va / 4096 then v % 2 ^ 64 else translate s.mem 3 r va' := by
  obtain ⟨g, o', hleaf, hg, -, htr⟩ := h.leaf
  rw [htr r o hr va']
  by_cases hpg : va' / 4096 = va / 4096
  · rw [if_pos hpg, if_pos]
    exact ⟨(leafOf_same_page hpg 3 r).trans hleaf, by rw [indexAt, indexAt, part_same_page hpg]⟩
  · rw [if_neg hpg, if_neg]
    rintro ⟨h1, h2⟩
    exact hpg (h.same_page hg hr hva' h1 h2).1

/-- A map of another owner sees nothing of a store below index 0. -/
theorem Stored.translate_other (h : Stored own own' s s' r o va v) (htop : indexAt 3 va = 0)
    (hf : own f = some ⟨o'', 3, 0⟩) (ho : o'' ≠ o) (hnone : o ≠ none) (hva' : va' < 2 ^ 48) :
    translate s'.mem 3 f va' = translate s.mem 3 f va' := by
  obtain ⟨g, o', -, hg, hv, htr⟩ := h.leaf
  rw [htr f o'' hf va', if_neg]
  rintro ⟨h1, h2⟩
  obtain ⟨-, hv'⟩ := h.same_page hg hf hva' h1 h2
  have ho' : o' = o := by
    rcases hv with h' | ⟨-, -, h'⟩
    · exact h'
    · exact absurd htop h'
  rcases hv' with h' | ⟨-, h', -⟩
  · exact ho (h'.symm.trans ho')
  · exact hnone (ho'.symm.trans h')

end WalkStore

/-! ## The operations -/

/-- What `pml4_get_page` makes of a leaf entry. -/
def mapped (e va : Nat) : Option Nat :=
  if e &&& pteP = 0 then none else some (ptov (pteAddr e) + pgOfs va)

/-- The leaf entry that `pml4_set_page` writes. -/
def leafEntry (kpage : Nat) (rw : Bool) : Nat :=
  (kpage - kernBase) ||| pteP ||| (if rw then pteW else 0) ||| pteU

/-- The entry for a page: its physical address and the flags. -/
theorem leafEntry_eq {kpage : Nat} (ha : kpage % 4096 = 0) (hlt : kpage < 2 ^ 64) (w : Bool) :
    leafEntry kpage w = kpage - kernBase + (if w then 7 else 5) ∧ leafEntry kpage w < 2 ^ 64 := by
  have hofs : (kpage - kernBase) % 4096 = 0 := by
    simp only [kernBase]
    omega
  have heq : leafEntry kpage w = kpage - kernBase + (if w then 7 else 5) := by
    rw [leafEntry, Nat.or_assoc, Nat.or_assoc]
    cases w with
    | true => exact or_flags hofs (by decide)
    | false => exact or_flags hofs (by decide)
  refine ⟨heq, ?_⟩
  rw [heq]
  simp only [kernBase]
  split <;> omega

/-- The entry for a page leads to the page. -/
theorem mapped_leafEntry {kpage : Nat} (hk : isKernelVaddr kpage) (ha : kpage % 4096 = 0)
    (hlt : kpage < 2 ^ 64) (w : Bool) (va : Nat) :
    mapped (leafEntry kpage w) va = some (kpage + va % 4096) := by
  obtain ⟨heq, hlt'⟩ := leafEntry_eq ha hlt w
  have hofs : kernBase % 4096 = 0 ∧ kernBase ≤ kpage := ⟨by decide, hk⟩
  have hodd : leafEntry kpage w % 2 = 1 := by
    rw [heq]
    split <;> omega
  have haddr : pteAddr (leafEntry kpage w) = kpage - kernBase := by
    rw [pteAddr_eq hlt', heq]
    split <;> omega
  rw [mapped, and_pteP, if_neg (by omega), haddr, ptov, Nat.sub_add_cancel hofs.2,
    Nat.mod_eq_of_lt hlt, pgOfs_eq]

theorem leafEntry_kva (f : Frame) (w : Bool) :
    leafEntry (kva f) w = 4096 * f.val + (if w then 7 else 5) ∧ leafEntry (kva f) w < 2 ^ 64 := by
  obtain ⟨ha, -, hlt⟩ := kva_facts f
  have hsub : kva f - kernBase = 4096 * f.val := by simp [kva]
  have h := leafEntry_eq ha (by omega) w
  rwa [hsub] at h

/-- The entry for a frame names the frame. -/
theorem target_leafEntry (f : Frame) (w : Bool) : target (leafEntry (kva f) w) = some f := by
  obtain ⟨heq, -⟩ := leafEntry_kva f w
  have hdiv : (4096 * f.val + (if w then 7 else 5)) / 4096 = f.val := by split <;> omega
  have hmod : (4096 * f.val + (if w then 7 else 5)) % 2 = 1 := by split <;> omega
  rw [heq]
  simp only [target, hmod, hdiv, f.isLt, dif_pos]
  rfl

section Operations

variable {own : Frame → Option Label} {s : Machine} {r : Frame} {o : Option Nat} {va : Nat}
  {upage : Nat}

theorem user_key (hu : isUserVaddr va) : part (3 + 1) va = 0 := by
  rw [isUserVaddr_iff] at hu
  exact Nat.div_eq_of_lt (by norm_num; omega)

section

variable (ht : Tables own s) (hr : own r = some ⟨o, 3, 0⟩) (hu : isUserVaddr va)
include ht hr hu

theorem wp_pml4GetPage (Q : Option Nat → Machine → Prop) :
    wp (pml4GetPage (kva r) va) s Q ↔ Q (mapped (translate s.mem 3 r va) va) s := by
  have hr' : own r = some ⟨o, 3, part (3 + 1) va⟩ := by rw [user_key hu]; exact hr
  rw [pml4GetPage, wp_bind, wp_check, wp_bind, pml4eWalk_readsLeaf own s r o va ht hr']
  simp only [hu, true_and]
  cases hl : leafOf s.mem 3 r va with
  | none => simp [translate_of_leafOf_none hl, mapped]
  | some g =>
    rw [translate_of_leafOf_some hl]
    simp only [Option.map_some, wp_bind, wp_read64]
    change wp (if entry s.mem g (indexAt 0 va) &&& pteP = 0 then pure none else
      pure (some (ptov (pteAddr (entry s.mem g (indexAt 0 va))) + pgOfs va))) s Q ↔ _
    by_cases hp : entry s.mem g (indexAt 0 va) &&& pteP = 0
    · simp [mapped, hp]
    · simp [mapped, hp]

/-- What `pml4_get_page` returns, in terms of the translation. -/
theorem pml4GetPage_eq :
    pml4GetPage (kva r) va s = .ok (mapped (translate s.mem 3 r va) va, s) := by
  obtain ⟨a, s', hok, ha, hs⟩ := (wp_pml4GetPage ht hr hu
    fun a s' => a = mapped (translate s.mem 3 r va) va ∧ s' = s).2 ⟨rfl, rfl⟩
  rw [hok, ha, hs]

/-- What `pml4e_walk` without `create` returns: the address of the leaf entry. -/
theorem pml4eWalk_eq :
    pml4eWalk (kva r) va false s =
      .ok ((leafOf s.mem 3 r va).map fun g => kva g + 8 * indexAt 0 va, s) := by
  have hr' : own r = some ⟨o, 3, part (3 + 1) va⟩ := by rw [user_key hu]; exact hr
  obtain ⟨a, s', hok, ha, hs⟩ := (pml4eWalk_readsLeaf own s r o va ht hr'
    fun a s' => a = ((leafOf s.mem 3 r va).map fun g => kva g + 8 * indexAt 0 va) ∧ s' = s).2
      ⟨rfl, rfl⟩
  rw [hok, ha, hs]

end

/-- The 48 bits of an address that a walk looks at have no part above the top level's index. -/
theorem root_key (hr : own r = some ⟨o, 3, 0⟩) (va : Nat) :
    own r = some ⟨o, 3, part (3 + 1) (va % 2 ^ 48)⟩ := by
  have hkey : part (3 + 1) (va % 2 ^ 48) = 0 := Nat.div_eq_of_lt (Nat.mod_lt _ (by norm_num))
  rw [hkey]
  exact hr

section

variable (ht : Tables own s) (hr : own r = some ⟨o, 3, 0⟩)
include ht hr

/-- The same for every 64-bit address. -/
theorem result_pml4eWalk (va : Nat) :
    result (pml4eWalk (kva r) va false) s =
      .ok ((leafOf s.mem 3 r (va % 2 ^ 48)).map fun g => kva g + 8 * indexAt 0 (va % 2 ^ 48)) := by
  rw [pml4eWalk_mod]
  exact result_of_wp (Q := fun _ => True)
    ((pml4eWalk_readsLeaf own s r o _ ht (root_key hr va) _).2 ⟨rfl, trivial⟩)

/-- `pml4_set_page`, where it does not panic. -/
theorem wlp_pml4SetPage (ho : o ≠ none) (upage kpage : Nat) (rw : Bool) :
    wlp (pml4SetPage (kva r) upage kpage rw) s fun ok s' =>
      isUserVaddr upage ∧ ((ok = false ∧ NoTrace s s') ∨
        (ok = true ∧ ∃ own', Stored own own' s s' r o upage (leafEntry kpage rw))) := by
  simp only [pml4SetPage, wlp_bind, wlp_check, wlp_get]
  intro _ _ hu _
  have hr' : own r = some ⟨o, 3, part (3 + 1) upage⟩ := by rw [user_key hu]; exact hr
  refine wlp_mono (wlp_of_wp (pml4eWalk_createsLeaf own s r o upage ht hr'
    fun _ h => absurd h ho)) ?_
  rintro pte s' ⟨hw, -⟩
  cases pte with
  | none =>
    rw [wlp_pure]
    exact ⟨hu, .inl ⟨rfl, hw⟩⟩
  | some pte =>
    simp only [vtop, wlp_bind, wlp_check, wlp_pure, write64, wlp_modify]
    intro _
    exact ⟨hu, .inr ⟨trivial, stored_of_walked (v := leafEntry kpage rw) hr hw⟩⟩

/-- `pml4_set_page` does not panic on pages that it admits. -/
theorem wp_pml4SetPage (ho : o ≠ none) (hbase : kva r ≠ s.basePml4) {kpage : Nat}
    (hua : upage % 4096 = 0) (hka : kpage % 4096 = 0) (hu : isUserVaddr upage)
    (hk : isKernelVaddr kpage) (rw : Bool) :
    wp (pml4SetPage (kva r) upage kpage rw) s fun ok s' =>
      (ok = false ∧ NoTrace s s') ∨
        (ok = true ∧ ∃ own', Stored own own' s s' r o upage (leafEntry kpage rw)) := by
  have hr' : own r = some ⟨o, 3, part (3 + 1) upage⟩ := by rw [user_key hu]; exact hr
  simp only [pml4SetPage, wp_bind, wp_check, wp_get, pgOfs_eq, hua, hka, hu, hbase, ne_eq,
    not_false_eq_true, true_and]
  refine wp_mono (pml4eWalk_createsLeaf own s r o upage ht hr' fun _ h => absurd h ho) ?_
  rintro pte s' ⟨hw, -⟩
  cases pte with
  | none =>
    rw [wp_pure]
    exact .inl ⟨rfl, hw⟩
  | some pte =>
    simp only [wp_bind, wp_vtop, wp_pure, wp_write64]
    exact ⟨hk, .inr ⟨trivial, stored_of_walked (v := leafEntry kpage rw) hr hw⟩⟩

/-- `pml4_clear_page` changes nothing where nothing is mapped, and else clears the present bit of
the one leaf entry. -/
theorem wp_pml4ClearPage (hua : pgOfs upage = 0) (hu : isUserVaddr upage) :
    wp (pml4ClearPage (kva r) upage) s fun _ s' =>
      (translate s.mem 3 r upage % 2 = 0 ∧ s' = s) ∨ (translate s.mem 3 r upage % 2 = 1 ∧ ∃ g,
        leafOf s.mem 3 r upage = some g ∧ s' = storeLeaf s g (indexAt 0 upage)
          (translate s.mem 3 r upage &&& 0xfffffffffffffffe)) := by
  have hr' : own r = some ⟨o, 3, part (3 + 1) upage⟩ := by rw [user_key hu]; exact hr
  rw [pml4ClearPage, wp_bind, wp_check, wp_bind, wp_check, wp_bind,
    pml4eWalk_readsLeaf own s r o upage ht hr']
  refine ⟨hua, hu, ?_⟩
  cases hl : leafOf s.mem 3 r upage with
  | none =>
    simp only [Option.map_none]
    rw [wp_pure]
    exact .inl ⟨by rw [translate_of_leafOf_none hl], rfl⟩
  | some g =>
    rw [translate_of_leafOf_some hl]
    simp only [Option.map_some, wp_bind, wp_read64]
    change wp (if entry s.mem g (indexAt 0 upage) &&& pteP ≠ 0 then do
        write64 (kva g + 8 * indexAt 0 upage)
          (entry s.mem g (indexAt 0 upage) &&& 0xfffffffffffffffe)
        let _ ← vtop (kva r)
        return ()
      else pure ()) s _
    rw [and_pteP]
    rcases Nat.mod_two_eq_zero_or_one (entry s.mem g (indexAt 0 upage)) with hp | hp
    · rw [if_neg (not_not.2 hp), wp_pure]
      exact .inl ⟨hp, rfl⟩
    · rw [if_pos (by rw [hp]; decide), wp_bind, wp_write64, wp_bind, wp_vtop_kva, wp_pure]
      exact .inr ⟨hp, g, rfl, rfl⟩

/-- The same, where the call does not panic. -/
theorem wlp_pml4ClearPage (upage : Nat) :
    wlp (pml4ClearPage (kva r) upage) s fun _ s' =>
      isUserVaddr upage ∧ ((s' = s) ∨ (translate s.mem 3 r upage % 2 = 1 ∧ ∃ g,
        leafOf s.mem 3 r upage = some g ∧ s' = storeLeaf s g (indexAt 0 upage)
          (translate s.mem 3 r upage &&& 0xfffffffffffffffe))) := by
  have hchecks : wlp (pml4ClearPage (kva r) upage) s fun _ _ =>
      pgOfs upage = 0 ∧ isUserVaddr upage := by
    rw [pml4ClearPage, wlp_bind, wlp_check]
    intro hua
    rw [wlp_bind, wlp_check]
    intro hu
    exact fun _ _ _ => ⟨hua, hu⟩
  intro a s' hrun
  obtain ⟨hua, hu⟩ := hchecks a s' hrun
  rcases wlp_of_wp (wp_pml4ClearPage ht hr hua hu) a s' hrun with ⟨-, hs⟩ | hstore
  · exact ⟨hu, .inl hs⟩
  · exact ⟨hu, .inr hstore⟩

end

end Operations

/-! ## A new page map -/

/-- The machine after `pml4_create` has taken the frame `g`. -/
def newMap (s : Machine) (g : Frame) : Machine :=
  { s with
    used := update s.used g true
    answers := s.answers.tail
    mem := copy s.mem (kva g) s.basePml4 pgSize }

/-- The labels with the new top level added. -/
def labelMap (own : Frame → Option Label) (g : Frame) : Frame → Option Label :=
  update own g (some ⟨some (kva g), 3, 0⟩)

section NewMap

variable {own : Frame → Option Label} {s : Machine} {rb g : Frame}

theorem newMap_samePage (hf : f ≠ g) : SamePage s.mem (newMap s g).mem f := by
  change SamePage s.mem (patch s.mem (kva g) 4096 fun i => s.mem (s.basePml4 + i)) f
  exact samePage_page hf

theorem newMap_entry (hbase : s.basePml4 = kva rb) (hi : i < 512) :
    entry (newMap s g).mem g i = entry s.mem rb i := by
  rw [newMap, hbase]
  exact readLE_copy (by simp only [pgSize]; omega)

theorem labelMap_keeps (ht : Tables own s) (hfree : s.used g = false) :
    ∀ f l, own f = some l → labelMap own g f = some l := by
  intro f l hl
  exact (update_of_ne (ht.ne_free hl hfree) _ _).trans hl

/-- A copy of the base page map's top level may be labelled for any owner who may name the tables
that the base page map names. -/
theorem newMap_labelled {o : Option Nat} (ht : Tables own s) (hb : own rb = some ⟨o, 3, 0⟩)
    (hbase : s.basePml4 = kva rb) (hpool : s.poolOf g = some .kernel) (hfree : s.used g = false)
    (hco : ∀ i c, ChildOwner o 2 i c → ChildOwner o' 2 i c) :
    Tables (update own g (some ⟨o', 3, 0⟩)) (newMap s g) := by
  have hkeep : ∀ f l, own f = some l → update own g (some ⟨o', 3, 0⟩) f = some l :=
    fun f l hl => (update_of_ne (ht.ne_free hl hfree) _ _).trans hl
  refine ⟨?_, ?_⟩
  · intro f l hl
    by_cases hfg : f = g
    · subst hfg
      exact ⟨update_self .., hpool⟩
    · rw [update_of_ne hfg] at hl
      obtain ⟨hu, hp⟩ := ht.used f l hl
      exact ⟨(update_of_ne hfg _ _).trans hu, hp⟩
  · intro f c d k hl i hi
    by_cases hfg : f = g
    · subst hfg
      rw [update_self] at hl
      cases hl
      -- the entries of the copy are those of the base page map
      rw [newMap_entry hbase hi]
      rcases ht.child rb o 2 0 hb i hi with h0 | ⟨g', c', hg', hown, hc'⟩
      · exact .inl h0
      · exact .inr ⟨g', c', hg', hkeep g' _ hown, hco i c' hc'⟩
    · rw [update_of_ne hfg] at hl
      rw [(newMap_samePage hfg).entry hi]
      rcases ht.child f c d k hl i hi with h0 | ⟨g', c', hg', hown, hc'⟩
      · exact .inl h0
      · exact .inr ⟨g', c', hg', hkeep g' _ hown, hc'⟩

theorem newMap_tables (ht : Tables own s) (hb : own rb = some ⟨none, 3, 0⟩)
    (hbase : s.basePml4 = kva rb) (hpool : s.poolOf g = some .kernel) (hfree : s.used g = false) :
    Tables (labelMap own g) (newMap s g) := by
  refine newMap_labelled ht hb hbase hpool hfree ?_
  intro i c hc
  have hnone : c = none := by
    rcases hc.1 with h | ⟨-, h⟩ <;> exact h
  exact ⟨.inr ⟨rfl, hnone⟩, hc.2⟩

/-- The new map translates as the base page map does. -/
theorem newMap_translate (ht : Tables own s) (hb : own rb = some ⟨none, 3, 0⟩)
    (hbase : s.basePml4 = kva rb) (hfree : s.used g = false) (va : Nat) :
    translate (newMap s g).mem 3 g va = translate s.mem 3 rb va := by
  rw [PageTables.translate, PageTables.translate, newMap_entry hbase (indexAt_lt 3 va)]
  rcases ht.child rb none 2 0 hb _ (indexAt_lt 3 va) with h0 | ⟨g', o', hg', hown, -⟩
  · rw [h0]
    rfl
  · rw [hg']
    exact ht.translate_congr (fun f l hl => newMap_samePage (ht.ne_free hl hfree)) va 2 g' o' _ hown

/-- `pml4_create` fails without a trace or copies the base page map into a free page. -/
theorem wp_pml4Create {Q : Option Nat → Machine → Prop}
    (hsome : ∀ g, s.poolOf g = some .kernel → s.used g = false → Q (some (kva g)) (newMap s g))
    (hnone : ∀ s', NoTrace s s' → Q none s') : wp pml4Create s Q := by
  rw [pml4Create, wp_bind]
  apply wp_pallocGetPage rfl
  · intro g hpool hfree
    simp only [wp_bind, wp_modify, wp_pure]
    exact hsome g hpool hfree
  · simp only [wp_pure]
    exact hnone _ (noTrace_answers s _)

end NewMap

/-! ## The base page map -/

/-- The base page map `rb` is a tree of allocated tables, with its top level labelled for `o`. -/
structure BaseMap (o : Option Nat) (own : Frame → Option Label) (rb : Frame)
    (s : Machine) : Prop where
  tables : Tables own s
  root : own rb = some ⟨o, 3, 0⟩
  base : s.basePml4 = kva rb

section Base

variable {o o' : Option Nat} {own own' : Frame → Option Label} {rb r : Frame} {s s' : Machine}
  {va v memEnd : Nat}

/-- Labels that are kept keep the map. -/
theorem BaseMap.grow (h : BaseMap o own rb s) (ht : Tables own' s')
    (hkeep : ∀ f l, own f = some l → own' f = some l) (hbase : s'.basePml4 = s.basePml4) :
    BaseMap o own' rb s' :=
  ⟨ht, hkeep rb _ h.root, hbase.trans h.base⟩

theorem BaseMap.noTrace (h : BaseMap o own rb s) (hs : NoTrace s s') : BaseMap o own rb s' :=
  h.grow (hs.tables h.tables) (fun _ _ hl => hl) hs.base

theorem BaseMap.stored (h : BaseMap o own rb s) (hs : Stored own own' s s' r o' va v) :
    BaseMap o own' rb s' :=
  h.grow hs.tables hs.keeps hs.base

/-- A zeroed page as the base page map. -/
theorem baseMap_zero (o : Option Nat) (hpool : s.poolOf rb = some .kernel) :
    BaseMap o (update (fun _ => none) rb (some ⟨o, 3, 0⟩)) rb
      { s.take { assert := true, zero := true } rb with basePml4 := kva rb } := by
  have hroot : ∀ f l, update (fun _ => (none : Option Label)) rb (some ⟨o, 3, 0⟩) f = some l →
      f = rb := by
    intro f l hl
    by_contra hf
    rw [update_of_ne hf] at hl
    cases hl
  refine ⟨⟨?_, ?_⟩, update_self .., rfl⟩
  · intro f l hl
    obtain rfl := hroot f l hl
    exact ⟨update_self .., hpool⟩
  · intro f o d k hl i hi
    obtain rfl := hroot f _ hl
    exact .inl (entry_fill_zero hi)

theorem wlp_mapKernelPage (h : BaseMap o own rb s) (textStart textEnd : Nat) {pa : Nat}
    (htop : o = none → indexAt 3 (ptov pa % 2 ^ 48) ≠ 0) :
    wlp (mapKernelPage textStart textEnd (kva rb) pa) s fun _ s' =>
      NoTrace s s' ∨ ∃ own' v, Stored own own' s s' rb o (ptov pa % 2 ^ 48) v := by
  rw [mapKernelPage, wlp_bind, pml4eWalk_mod]
  refine wlp_mono (wlp_of_wp (pml4eWalk_createsLeaf own s rb o (ptov pa % 2 ^ 48) h.tables
    (root_key h.root (ptov pa)) fun _ => htop)) ?_
  rintro pte s' ⟨hw, -⟩
  cases pte with
  | none =>
    rw [wlp_pure]
    exact .inl hw
  | some pte =>
    simp only [write64, wlp_modify]
    obtain ⟨own', hst⟩ := stored_of_walked (v := pa ||| if textStart ≤ ptov pa ∧ ptov pa < textEnd
      then pteP else pteP ||| pteW) h.root hw
    exact .inr ⟨own', _, hst⟩

/-- `paging_init` establishes what holds of a zeroed page and is kept when a page of the kernel's
direct map is entered, or not for want of memory. -/
theorem wlp_pagingInit_of {I : (Frame → Option Label) → Frame → Machine → Prop}
    (hzero : ∀ rb, s.poolOf rb = some .kernel → I (update (fun _ => none) rb (some ⟨o, 3, 0⟩)) rb
      { s.take { assert := true, zero := true } rb with basePml4 := kva rb })
    (hmap : ∀ {own rb s}, I own rb s → BaseMap o own rb s)
    (htop : ∀ i < (memEnd + pgSize - 1) / pgSize, o = none →
      indexAt 3 (ptov (pgSize * i) % 2 ^ 48) ≠ 0)
    (hnone : ∀ {own rb s s'}, I own rb s → NoTrace s s' → I own rb s')
    (hstored : ∀ {own own' rb s s' v}, ∀ i < (memEnd + pgSize - 1) / pgSize, I own rb s →
      Stored own own' s s' rb o (ptov (pgSize * i) % 2 ^ 48) v → I own' rb s')
    (textStart textEnd : Nat) :
    wlp (pagingInit memEnd textStart textEnd) s fun _ s' => ∃ own rb, I own rb s' := by
  -- the loop, over any of the page numbers
  have hloop : ∀ (l : List Nat) {own rb s}, (∀ i ∈ l, i < (memEnd + pgSize - 1) / pgSize) →
      I own rb s → wlp (l.forM fun i => mapKernelPage textStart textEnd (kva rb) (pgSize * i)) s
        fun _ s' => ∃ own', I own' rb s' := by
    intro l
    induction l with
    | nil =>
      intro own rb s _ h
      change wlp (pure PUnit.unit) s _
      rw [wlp_pure]
      exact ⟨own, h⟩
    | cons i l ih =>
      intro own rb s hl h
      obtain ⟨hi, hl⟩ := List.forall_mem_cons.1 hl
      change wlp (mapKernelPage textStart textEnd (kva rb) (pgSize * i) >>= fun _ => l.forM _) s _
      rw [wlp_bind]
      refine wlp_mono (wlp_mapKernelPage (hmap h) textStart textEnd (htop i hi)) ?_
      rintro - s' (hnt | ⟨own', v, hst⟩)
      · exact ih hl (hnone h hnt)
      · exact ih hl (hstored i hi h hst)
  rw [pagingInit, wlp_bind]
  apply wlp_pallocGetPage
  · intro rb hpool _
    simp only [wlp_bind, wlp_modify]
    exact wlp_mono (hloop _ (fun i hi => List.mem_range.1 hi) (hzero rb hpool))
      fun _ s' h => ⟨h.choose, rb, h.choose_spec⟩
  · intro h
    cases h

end Base

/-- The machine after `paging_init`: the tables are those of the base page map, and it translates
no user address. -/
structure Booted (own : Frame → Option Label) (rb : Frame) (s : Machine) : Prop
    extends BaseMap none own rb s where
  owner : ∀ f l, own f = some l → l.owner = none
  user : ∀ va, isUserVaddr va → translate s.mem 3 rb va = 0

/-- `paging_init` leaves a base page map that translates no user address. -/
theorem wlp_pagingInit {memEnd : Nat} (hmem : kernBase + memEnd ≤ 2 ^ 48) (textStart textEnd : Nat)
    (s : Machine) :
    wlp (pagingInit memEnd textStart textEnd) s fun _ s' => ∃ own rb, Booted own rb s' := by
  have hva : ∀ i < (memEnd + pgSize - 1) / pgSize,
      ptov (pgSize * i) % 2 ^ 48 = kernBase + pgSize * i := by
    intro i hi
    simp only [ptov, kernBase, pgSize] at hmem hi ⊢
    omega
  refine wlp_pagingInit_of (o := none) ?_ (·.toBaseMap) ?_ ?_ ?_ textStart textEnd
  · intro rb hpool
    refine ⟨baseMap_zero none hpool, ?_, fun va _ =>
      translate_zero_table (fun i hi => entry_fill_zero hi) va⟩
    intro f l hl
    by_cases hf : f = rb
    · rw [hf, update_self] at hl
      rw [← Option.some.inj hl]
    · rw [update_of_ne hf] at hl
      cases hl
  · intro i hi _
    rw [hva i hi, indexAt_three, pml4Index_eq]
    simp only [kernBase, pgSize] at hmem hi ⊢
    omega
  · intro own rb s s' h hnt
    exact ⟨h.noTrace hnt, h.owner,
      fun va hu => (hnt.translate h.tables h.root va).trans (h.user va hu)⟩
  · intro own own' rb s s' v i hi h hst
    refine ⟨h.stored hst, fun f l hl => ?_, fun va hu => ?_⟩
    · rcases hst.fresh f l hl with hl' | ⟨-, hv | ⟨-, hv, -⟩, -⟩
      · exact h.owner f l hl'
      · exact hv
      · exact hv
    rw [hva i hi] at hst
    rw [hst.translate_self h.root (by rw [isUserVaddr_iff] at hu; omega), if_neg]
    · exact h.user va hu
    · rw [isUserVaddr_iff] at hu
      simp only [kernBase, pgSize]
      omega

end Pintos.Threads.PageMap
