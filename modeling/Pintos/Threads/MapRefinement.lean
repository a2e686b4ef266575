import Pintos.Threads.Isolation

/-!
# Page maps refine partial functions

To its user a page map is a partial function from page numbers to frames: `pml4_set_page` gives a
page a frame, `pml4_clear_page` takes it away, `pml4_get_page` reads. `Mapping` is that function,
`Represents` says that the lookups in a machine's tables are the lookups in a mapping, and
`pageMap_refines` that calls on a new page map keep the two in step.

Which page map owns a table plays no part here, and neither does the place of the kernel's direct
map: user pages may be mapped in tables that all page maps share (see `Isolation`), and the direct
map may wrap around the 48 bits that a walk looks at. So all tables, those of the base page map
included, are labelled for one owner; what is left of a label is the depth and the address bits,
and these say that addresses of different pages have different leaf entries.
-/

set_option autoImplicit false

namespace Pintos.Threads.MapRefinement

open Function Lib.StateExcept Lib.Runs
open Vaddr Palloc Mmu
open PageTables PageWalk PageMap
open Isolation (World Op boot user_lt)

/-! ## Mappings and calls -/

/-- A page map as its user sees it: the kernel address of the frame of each mapped page. -/
abbrev Mapping : Type := Nat → Option Nat

/-- What looking up the address `va` gives. -/
def Mapping.lookup (m : Mapping) (va : Nat) : Option Nat :=
  (m (va / pgSize)).map fun kpage => kpage + va % pgSize

/-- A call that changes a page map, with 64-bit pointers as arguments. -/
inductive Call where
  | setPage (upage kpage : UInt64) (rw : Bool)
  | clearPage (upage : UInt64)

/-- The arguments are a page of user addresses and, in a mapping call, a page of kernel
addresses. -/
def Call.Admitted : Call → Prop
  | .setPage upage kpage _ =>
    pgOfs upage.toNat = 0 ∧ isUserVaddr upage.toNat ∧
      pgOfs kpage.toNat = 0 ∧ isKernelVaddr kpage.toNat
  | .clearPage upage => pgOfs upage.toNat = 0 ∧ isUserVaddr upage.toNat

/-- The call on the page map `pml4`. `pml4_clear_page` has no result; it counts as a success. -/
def Call.exec (pml4 : Nat) : Call → KernelM Bool
  | .setPage upage kpage rw => pml4SetPage pml4 upage.toNat kpage.toNat rw
  | .clearPage upage => do
    pml4ClearPage pml4 upage.toNat
    return true

/-- What the call does to a mapping when it returns `ok`. -/
def Call.apply (m : Mapping) (ok : Bool) : Call → Mapping
  | .setPage upage kpage _ =>
    if ok then update m (upage.toNat / pgSize) (some kpage.toNat) else m
  | .clearPage upage => update m (upage.toNat / pgSize) none

/-- One call, on the machine and on the mapping. -/
def step (pml4 : Nat) (s : Machine × Mapping) (c : Call) : Option (Machine × Mapping) :=
  match c.exec pml4 s.1 with
  | .ok (ok, t) => some (t, c.apply s.2 ok)
  | .error _ => none

/-- Looking up any user address in the page map `pml4` gives what the mapping says. -/
def Represents (pml4 : Nat) (s : Machine) (m : Mapping) : Prop :=
  ∀ va, isUserVaddr va → pml4GetPage pml4 va s = .ok (m.lookup va, s)

/-- Only addresses of one page have one leaf entry. -/
def OwnEntries (pml4 : Nat) (s : Machine) : Prop :=
  ∀ va va' pte, isUserVaddr va → isUserVaddr va' → pml4eWalk pml4 va false s = .ok (some pte, s) →
    pml4eWalk pml4 va' false s = .ok (some pte, s) → va / pgSize = va' / pgSize

/-! ## Lookups -/

/-- The kernel address that a present leaf entry leads to. -/
def frameAt (e : Nat) : Option Nat := if e % 2 = 0 then none else some (ptov (pteAddr e))

theorem mapped_eq (e va : Nat) :
    mapped e va = (frameAt e).map fun kpage => kpage + va % pgSize := by
  rw [mapped, frameAt, and_pteP, pgOfs_eq]
  by_cases hp : e % 2 = 0
  · rw [if_pos hp, if_pos hp, Option.map_none]
  · rw [if_neg hp, if_neg hp, Option.map_some, pgSize]

theorem lookup_update (m : Mapping) (page : Nat) (f : Option Nat) (va : Nat) :
    Mapping.lookup (update m page f) va =
      if va / pgSize = page then f.map fun kpage => kpage + va % pgSize else m.lookup va := by
  by_cases h : va / pgSize = page
  · rw [if_pos h, Mapping.lookup, h, update_self]
  · rw [if_neg h, Mapping.lookup, Mapping.lookup, update_of_ne h]

/-- An entry without its lowest bit maps nothing. -/
theorem mapped_cleared (e va : Nat) : mapped ((e &&& 0xfffffffffffffffe) % 2 ^ 64) va = none := by
  have h : (e &&& 0xfffffffffffffffe) % 2 ^ 64 % 2 = 0 := by
    rw [Nat.mod_mod_of_dvd _ (by decide), ← pow_one 2, Nat.and_mod_two_pow]
    simp
  rw [mapped, and_pteP, if_pos h]

/-! ## One page map -/

/-- The labels of a page map with the top level `r`. -/
structure MapInv (own : Frame → Option Label) (r : Frame) (s : Machine) : Prop where
  tables : Tables own s
  root : own r = some ⟨some 0, 3, 0⟩
  notBase : kva r ≠ s.basePml4

/-- The leaf entries of the page map say what the mapping says. -/
def Agrees (r : Frame) (s : Machine) (m : Mapping) : Prop :=
  ∀ va, isUserVaddr va → mapped (translate s.mem 3 r va) va = m.lookup va

variable {own' : Frame → Option Label} {v : Nat}

section OneMap

variable {own : Frame → Option Label} {r : Frame} {s : Machine} {m : Mapping} {s' : Machine}

theorem MapInv.represents (h : MapInv own r s) (ha : Agrees r s m) : Represents (kva r) s m := by
  intro va hu
  rw [pml4GetPage_eq h.tables h.root hu, ha va hu]

theorem MapInv.ownEntries (h : MapInv own r s) : OwnEntries (kva r) s := by
  intro va va' pte hu hu' hw hw'
  rw [pml4eWalk_eq h.tables h.root hu, Except.ok.injEq, Prod.mk.injEq,
    Option.map_eq_some_iff] at hw
  rw [pml4eWalk_eq h.tables h.root hu', Except.ok.injEq, Prod.mk.injEq,
    Option.map_eq_some_iff] at hw'
  obtain ⟨⟨g, hleaf, hpte⟩, -⟩ := hw
  obtain ⟨⟨g', hleaf', hpte'⟩, -⟩ := hw'
  have hi := indexAt_lt 0 va
  have hi' := indexAt_lt 0 va'
  -- one entry lies in one table, at one index
  have hgg : g = g' := by
    by_contra hne
    rcases kva_disjoint hne with hd | hd <;> omega
  subst hgg
  have hidx : indexAt 0 va = indexAt 0 va' := by omega
  -- and the table's label has the address bits above the index
  obtain ⟨o, hg, -⟩ := h.tables.leafOf_label (by omega) (by rw [user_key hu]; exact h.root) hleaf
  obtain ⟨o', hg', -⟩ :=
    h.tables.leafOf_label (by omega) (by rw [user_key hu']; exact h.root) hleaf'
  rw [hg] at hg'
  simp only [Option.some.injEq, Label.mk.injEq, true_and] at hg'
  have hpage : part 0 va = part 0 va' := by rw [part_eq 0 va, part_eq 0 va', hg'.2, hidx]
  exact hpage

/-- Every page map represents some mapping. -/
theorem exists_agrees (r : Frame) (s : Machine) : ∃ m, Agrees r s m := by
  refine ⟨fun page => frameAt (translate s.mem 3 r (pgSize * page)), ?_⟩
  intro va _
  have hpg : pgSize * (va / pgSize) / 4096 = va / 4096 := by
    simp only [pgSize]
    omega
  rw [mapped_eq, ← PageTables.translate_same_page hpg]
  rfl

theorem Agrees.noTrace (h : MapInv own r s) (ha : Agrees r s m) (hnt : NoTrace s s') :
    MapInv own r s' ∧ Agrees r s' m := by
  refine ⟨⟨hnt.tables h.tables, h.root, by rw [hnt.base]; exact h.notBase⟩, ?_⟩
  intro va hu
  rw [hnt.translate h.tables h.root va]
  exact ha va hu

/-- A store in the leaf entry of `upage` updates the mapping at that page. -/
theorem Agrees.stored (h : MapInv own r s) (ha : Agrees r s m) {upage : Nat}
    (hst : Stored own own' s s' r (some 0) upage v) {f : Option Nat}
    (hv : ∀ va, mapped (v % 2 ^ 64) va = f.map fun kpage => kpage + va % pgSize) :
    MapInv own' r s' ∧ Agrees r s' (update m (upage / pgSize) f) := by
  refine ⟨⟨hst.tables, hst.keeps r _ h.root, by rw [hst.base]; exact h.notBase⟩, ?_⟩
  intro va hu
  rw [hst.translate_self h.root (user_lt hu), lookup_update]
  by_cases hpg : va / pgSize = upage / pgSize
  · have hpg' : va / 4096 = upage / 4096 := hpg
    rw [if_pos hpg, if_pos hpg', hv va]
  · have hpg' : va / 4096 ≠ upage / 4096 := hpg
    rw [if_neg hpg, if_neg hpg']
    exact ha va hu

/-- One call that is admitted returns, and does to the mapping what it should. -/
theorem wp_exec (h : MapInv own r s) (ha : Agrees r s m) {c : Call} (hc : c.Admitted) :
    wp (c.exec (kva r)) s fun ok s' =>
      ∃ own', MapInv own' r s' ∧ Agrees r s' (c.apply m ok) := by
  cases c with
  | setPage upage kpage rw =>
    obtain ⟨hua, hu, hka, hk⟩ := hc
    have hua' := hua
    have hka' := hka
    rw [pgOfs_eq] at hua' hka'
    refine wp_mono (wp_pml4SetPage h.tables h.root (by simp) h.notBase hua' hka' hu hk rw) ?_
    rintro ok s' (⟨rfl, hnt⟩ | ⟨rfl, own', hst⟩)
    · exact ⟨own, ha.noTrace h hnt⟩
    · have hlt := (leafEntry_eq hka' kpage.toNat_lt rw).2
      refine ⟨own', ha.stored h hst fun va => ?_⟩
      rw [Nat.mod_eq_of_lt hlt]
      exact mapped_leafEntry hk hka' kpage.toNat_lt rw va
  | clearPage upage =>
    obtain ⟨hua, hu⟩ := hc
    rw [Call.exec, wp_bind]
    refine wp_mono (wp_pml4ClearPage h.tables h.root hua hu) ?_
    rintro - s' (⟨hp, rfl⟩ | ⟨-, g, hleaf, rfl⟩)
    · rw [wp_pure]
      refine ⟨own, h, ?_⟩
      intro va hva
      rw [Call.apply, lookup_update]
      by_cases hpg : va / pgSize = upage.toNat / pgSize
      · -- the page was not mapped before the call
        have hnone := ha upage.toNat hu
        rw [mapped, and_pteP, if_pos hp, Mapping.lookup, ← hpg, eq_comm,
          Option.map_eq_none_iff] at hnone
        rw [if_pos hpg, ha va hva, Mapping.lookup, hnone]
      · rw [if_neg hpg]
        exact ha va hva
    · rw [wp_pure]
      exact ⟨own, ha.stored h (stored_of_storeLeaf h.tables h.root (user_lt hu) hleaf)
        fun va => mapped_cleared _ va⟩

end OneMap

/-! ## All page maps -/

/-- Every page map, the base page map included, has its tables labelled for one owner. -/
structure Shaped (own : Frame → Option Label) (rb : Frame) (w : World) : Prop
    extends BaseMap (some 0) own rb w.machine where
  maps : ∀ p ∈ w.maps, ∃ r, p = kva r ∧ own r = some ⟨some 0, 3, 0⟩

variable {s : Machine} {memEnd textStart textEnd : Nat} {w : World} {r : Frame} {w₀ : World}
  {ops : List Op}

section AllMaps

variable {own : Frame → Option Label} {rb : Frame}

theorem boot_shaped (h : boot memEnd textStart textEnd s = some w) : ∃ own rb, Shaped own rb w := by
  have hinit : wlp (pagingInit memEnd textStart textEnd) s fun _ s' =>
      ∃ own rb, BaseMap (some 0) own rb s' :=
    wlp_pagingInit_of (fun _ => baseMap_zero (some 0)) id (fun _ _ ho => by cases ho)
      (fun h hnt => h.noTrace hnt) (fun _ _ h hst => h.stored hst) textStart textEnd
  unfold boot at h
  split at h
  · rename_i a s' hrun
    cases h
    obtain ⟨own, rb, hb⟩ := hinit a s' hrun
    exact ⟨own, rb, hb, by simp⟩
  · cases h

/-- A new page map has the shape of the others. -/
theorem Shaped.newMap (h : Shaped own rb w) {g : Frame} (hpool : w.machine.poolOf g = some .kernel)
    (hfree : w.machine.used g = false) :
    Shaped (update own g (some ⟨some 0, 3, 0⟩)) rb
      ⟨PageMap.newMap w.machine g, kva g :: w.maps⟩ := by
  have hkeep : ∀ f l, own f = some l →
      update own g (some ⟨some 0, 3, 0⟩) f = some l :=
    fun f l hl => (update_of_ne (h.tables.ne_free hl hfree) _ _).trans hl
  refine ⟨h.grow (newMap_labelled h.tables h.root h.base hpool hfree fun _ _ hc => hc) hkeep rfl,
    ?_⟩
  intro p hp
  rcases List.mem_cons.1 hp with rfl | hp
  · exact ⟨g, rfl, update_self ..⟩
  · obtain ⟨r, hr, hl⟩ := h.maps p hp
    exact ⟨r, hr, hkeep r _ hl⟩

theorem Shaped.noTrace (h : Shaped own rb w) (hnt : NoTrace w.machine s) :
    Shaped own rb ⟨s, w.maps⟩ :=
  ⟨h.toBaseMap.noTrace hnt, h.maps⟩

theorem Shaped.stored (h : Shaped own rb w) {va : Nat}
    (hst : Stored own own' w.machine s r (some 0) va v) :
    Shaped own' rb ⟨s, w.maps⟩ := by
  refine ⟨h.toBaseMap.stored hst, ?_⟩
  intro p hp
  obtain ⟨r, hr, hl⟩ := h.maps p hp
  exact ⟨r, hr, hst.keeps r _ hl⟩

theorem step_shaped {w' : World} {op : Op} (h : Shaped own rb w)
    (hstep : Isolation.step w op = some w') : ∃ own', Shaped own' rb w' := by
  cases Isolation.step_effect (fun _ => 0) h.tables h.maps hstep with
  | noTrace hnt => exact ⟨own, h.noTrace hnt⟩
  | create hpool hfree => exact ⟨_, h.newMap hpool hfree⟩
  | setPage _ hst => exact ⟨_, h.stored hst⟩
  | clearPage _ _ _ _ hst => exact ⟨_, h.stored hst⟩

end AllMaps

/-! ## Whole runs -/

theorem run_shaped (hboot : boot memEnd textStart textEnd s = some w₀)
    (hrun : run Isolation.step w₀ ops = some w) : ∃ own rb, Shaped own rb w := by
  obtain ⟨own₀, rb, h₀⟩ := boot_shaped hboot
  obtain ⟨own, h⟩ : ∃ own, Shaped own rb w :=
    run_invariant (P := fun _ => True) (I := fun w => ∃ own, Shaped own rb w)
      (fun _ _ _ _ ⟨_, hw⟩ hstep => step_shaped hw hstep) (fun _ _ => trivial) ⟨own₀, h₀⟩ hrun
  exact ⟨own, rb, h⟩

/-- The page maps that calls on page maps lead to are well formed. -/
theorem pageMapAt_of_run (hboot : boot memEnd textStart textEnd s = some w₀)
    (hrun : run Isolation.step w₀ ops = some w) (hr : kva r ∈ w.maps) :
    PageMapAt w.machine r := by
  obtain ⟨own, rb, h⟩ := run_shaped hboot hrun
  obtain ⟨r', heq, hown⟩ := h.maps _ hr
  obtain rfl := kva_injective heq
  exact ⟨own, h.tables, hown⟩

/-- Calls on one page map return, keep its lookups in step with a mapping and its leaf entries
apart. -/
theorem run_agrees {own : Frame → Option Label} {m : Mapping} (h : MapInv own r s)
    (ha : Agrees r s m) (calls : List Call) (hc : ∀ c ∈ calls, c.Admitted) :
    ∃ s' m' own', run (step (kva r)) (s, m) calls = some (s', m') ∧ MapInv own' r s' ∧
      Agrees r s' m' := by
  induction calls generalizing own s m with
  | nil => exact ⟨s, m, own, rfl, h, ha⟩
  | cons c calls ih =>
    obtain ⟨ok, t, hrun, own', ht, hat⟩ := wp_exec h ha (hc c List.mem_cons_self)
    obtain ⟨s', m', own'', hrest, h', ha'⟩ :=
      ih ht hat fun c' hc' => hc c' (List.mem_cons_of_mem c hc')
    refine ⟨s', m', own'', run_cons_iff.2 ⟨(t, c.apply m ok), ?_, hrest⟩, h', ha'⟩
    rw [step, hrun]

/-- A page map made by `pml4_create`, in any state that calls on page maps lead to, represents a
partial function from pages to frames. Every sequence of calls on it returns and changes its
lookups as the function changes; addresses of different pages never have the same leaf entry. -/
theorem pageMap_refines {memEnd textStart textEnd : Nat} {s t : Machine} {w₀ w : World}
    {before : List Op} {p : Nat} (hboot : boot memEnd textStart textEnd s = some w₀)
    (hbefore : run Isolation.step w₀ before = some w)
    (hcreate : pml4Create w.machine = .ok (some p, t)) :
    ∃ m₀ : Mapping, ∀ calls : List Call, (∀ c ∈ calls, c.Admitted) →
      ∃ s' m, run (step p) (t, m₀) calls = some (s', m) ∧ Represents p s' m ∧ OwnEntries p s' := by
  obtain ⟨own, rb, h⟩ := run_shaped hboot hbefore
  -- the new top level is a page that was free, so it is not the base page map's
  have hnew : wp pml4Create w.machine fun p s' =>
      ∀ q, p = some q → ∃ r own', q = kva r ∧ MapInv own' r s' := by
    apply wp_pml4Create
    · rintro g hpool hfree q ⟨⟩
      refine ⟨g, _, rfl, (h.newMap hpool hfree).tables, update_self .., ?_⟩
      have hne := h.tables.ne_free h.root hfree
      change kva g ≠ w.machine.basePml4
      rw [h.base]
      exact fun e => hne (kva_injective e).symm
    · rintro s' - q ⟨⟩
  obtain ⟨r, own', rfl, hinv⟩ := wlp_of_wp hnew _ _ hcreate p rfl
  obtain ⟨m₀, ha⟩ := exists_agrees r t
  refine ⟨m₀, ?_⟩
  intro calls hc
  obtain ⟨s', m, own'', hrun, h', ha'⟩ := run_agrees hinv ha calls hc
  exact ⟨s', m, hrun, h'.represents ha', h'.ownEntries⟩

/-- The map that `pml4_create` makes when there are two others. -/
theorem pageMap_refines_third :
    ∃ p t, pml4Create Isolation.twoMaps.machine = .ok (some p, t) ∧
      ∃ m₀ : Mapping, ∀ calls : List Call, (∀ c ∈ calls, c.Admitted) →
        ∃ s' m, run (step p) (t, m₀) calls = some (s', m) ∧ Represents p s' m ∧
          OwnEntries p s' := by
  have hok : ((pml4Create Isolation.twoMaps.machine).toOption.any fun r => r.1.isSome) = true := by
    decide +kernel
  obtain ⟨⟨p, t⟩, hrun, hsome⟩ := (Option.any_eq_true _ _).1 hok
  obtain ⟨q, rfl⟩ := Option.isSome_iff_exists.1 hsome
  have hcreate := eq_ok_of_toOption hrun
  exact ⟨q, t, hcreate,
    pageMap_refines Isolation.booted_eq Isolation.twoMaps_eq hcreate⟩

end Pintos.Threads.MapRefinement
