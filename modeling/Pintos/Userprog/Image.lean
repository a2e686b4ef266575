import Pintos.Threads.PageMap
import Pintos.Userprog.SegmentCounters

/-!
# Loading as building an image

An image is the list of pages that the loader has mapped so far, each with its address, its
permission and its bytes. `Holds` connects the machine with an image: every page of the image is
mapped to a frame of its own that holds its bytes, and every other user address is translated as in
the base page map from which the process's map was copied. Each function of the loader then has one
specification: it returns, and either gives up or extends the image.
-/

set_option autoImplicit false

namespace Pintos.Userprog.Image

open Function Lib.StateExcept Lib.ByteMemory
open Threads.Vaddr Threads.Palloc
open Threads.PageTables Threads.PageWalk Threads.PageMap
open Userprog.Load

/-! ## Images -/

/-- A page of a process: address, permission and content. -/
@[ext] structure ImagePage where
  upage : Nat
  writable : Bool
  bytes : Nat → UInt8

/-- The page maps `va`. -/
def ImagePage.Covers (pg : ImagePage) (va : Nat) : Prop := va / 4096 = pg.upage / 4096

/-- The map at `r` holds the pages of the image, and elsewhere translates user addresses by `t`. The
tables labelled by `own₀` are those from before the loading. -/
structure Holds (own₀ own : Frame → Option Label) (rb r : Frame) (t : Nat → Nat)
    (img : List ImagePage) (s : Machine) : Prop where
  keeps : ∀ f l, own₀ f = some l → own f = some l
  tables : Tables own s
  baseRoot : own rb = some ⟨none, 3, 0⟩
  base : s.basePml4 = kva rb
  root : own r = some ⟨some (kva r), 3, 0⟩
  pages : ∀ pg ∈ img, ∃ f, own f = none ∧ s.used f = true ∧
    (∀ va, isUserVaddr va → pg.Covers va →
      translate s.mem 3 r va = leafEntry (kva f) pg.writable) ∧
    ∀ i < 4096, s.mem (kva f + i) = pg.bytes i
  rest : ∀ va, isUserVaddr va → (∀ pg ∈ img, ¬ pg.Covers va) → translate s.mem 3 r va = t va

theorem Holds.baseMap {own₀ own : Frame → Option Label} {rb r : Frame} {t : Nat → Nat}
    {img : List ImagePage} {s : Machine} (h : Holds own₀ own rb r t img s) :
    BaseMap none own rb s :=
  ⟨h.tables, h.baseRoot, h.base⟩

/-! ## A page on its way into the image -/

/-- The free frame `f` of the user pool has been taken and filled with `bytes`. -/
structure Filled (s s' : Machine) (f : Frame) (bytes : Nat → UInt8) : Prop where
  free : s.used f = false
  user : s.poolOf f = some .user
  used : s'.used = update s.used f true
  pool : s'.poolOf = s.poolOf
  base : s'.basePml4 = s.basePml4
  page : ∀ g, g ≠ f → SamePage s.mem s'.mem g
  bytes : ∀ i < 4096, s'.mem (kva f + i) = bytes i

section Steps

variable {own₀ own : Frame → Option Label} {rb r : Frame} {t : Nat → Nat} {img : List ImagePage}
  {s s' : Machine} {f : Frame} {bytes : Nat → UInt8} {g : Frame} {s'' : Machine} {upage : Nat}

/-- A new map holds the empty image. -/
theorem holds_newMap (h : BaseMap none own rb s) (hpool : s.poolOf g = some .kernel)
    (hfree : s.used g = false) :
    Holds own (labelMap own g) rb g (translate s.mem 3 rb) [] (newMap s g) := by
  have hkeep := labelMap_keeps h.tables hfree
  refine ⟨hkeep, newMap_tables h.tables h.root h.base hpool hfree, hkeep rb _ h.root, h.base,
    update_self _ _ _, by simp, ?_⟩
  exact fun va _ _ => newMap_translate h.tables h.root h.base hfree va

/-- What leaves used pages and their use alone leaves the image. -/
theorem Holds.of_same (h : Holds own₀ own rb r t img s) (hbase : s'.basePml4 = s.basePml4)
    (hused : ∀ g, s.used g = true → s'.used g = true) (hpool : s'.poolOf = s.poolOf)
    (hpage : ∀ g, s.used g = true → SamePage s.mem s'.mem g) : Holds own₀ own rb r t img s' := by
  have hlab : ∀ g l, own g = some l → SamePage s.mem s'.mem g :=
    fun g l hl => hpage g (h.tables.used g l hl).1
  have htr : ∀ va, translate s'.mem 3 r va = translate s.mem 3 r va :=
    fun va => h.tables.translate_congr hlab va 3 r _ 0 h.root
  refine ⟨h.keeps, ⟨?_, ?_⟩, h.baseRoot, hbase.trans h.base, h.root, ?_, ?_⟩
  · intro g l hl
    obtain ⟨hu, hp⟩ := h.tables.used g l hl
    exact ⟨hused g hu, by rw [hpool]; exact hp⟩
  · intro g o d k hl i hi
    rw [(hlab g _ hl).entry hi]
    exact h.tables.child g o d k hl i hi
  · intro pg hpg
    obtain ⟨g, hown, hu, hmap, hb⟩ := h.pages pg hpg
    refine ⟨g, hown, hused g hu, fun va hva hc => (htr va).trans (hmap va hva hc), ?_⟩
    intro i hi
    exact (hpage g hu _ (by omega) (by omega)).trans (hb i hi)
  · exact fun va hva hno => (htr va).trans (h.rest va hva hno)

theorem Holds.noTrace (h : Holds own₀ own rb r t img s) (hs : NoTrace s s') :
    Holds own₀ own rb r t img s' :=
  h.of_same hs.base (fun g hg => by rw [hs.used]; exact hg) hs.pool hs.page

theorem samePage_release (hgf : g ≠ f) : SamePage s.mem (s.release f).mem g := by
  change SamePage s.mem (patch s.mem (kva f) 4096 fun _ => 0xcc) g
  exact samePage_page hgf

theorem Filled.used_keep (hf : Filled s s' f bytes) (hg : s.used g = true) :
    s'.used g = true := by
  rw [hf.used, update_of_ne (ne_of_used hg hf.free)]
  exact hg

theorem Holds.filled (h : Holds own₀ own rb r t img s) (hf : Filled s s' f bytes) :
    Holds own₀ own rb r t img s' :=
  h.of_same hf.base (fun _ hg => hf.used_keep hg) hf.pool
    fun g hg => hf.page g (ne_of_used hg hf.free)

/-- Giving the frame back after a failure leaves no trace. -/
theorem Filled.release (hf : Filled s s' f bytes) (hs : NoTrace s' s'') :
    NoTrace s (s''.release f) where
  used := by
    funext g
    by_cases hgf : g = f
    · subst hgf
      exact (update_self ..).trans hf.free.symm
    · have hrel : (s''.release f).used g = s''.used g := update_of_ne hgf _ _
      rw [hrel, hs.used, hf.used]
      exact update_of_ne hgf _ _
  pool := hs.pool.trans hf.pool
  base := hs.base.trans hf.base
  page := by
    intro g hg
    have hgf : g ≠ f := ne_of_used hg hf.free
    have hlast : SamePage s''.mem (s''.release f).mem g := samePage_release hgf
    exact ((hf.page g hgf).trans (hs.page g (hf.used_keep hg))).trans hlast

theorem wp_free_filled (hf : Filled s s' f bytes) (hs : NoTrace s' s'') {Q : Unit → Machine → Prop}
    (hQ : ∀ u, NoTrace s u → Q () u) :
    wp (pallocFreePage (kva f)) s'' Q := by
  apply wp_pallocFreePage
  · rw [hs.pool, hf.pool, hf.user]
    simp
  · rw [hs.used, hf.used]
    exact update_self ..
  · exact hQ _ (hf.release hs)

/-- `install_page` returns; it fails without a trace, or stores the entry where none was present. -/
theorem wp_installPage (h : Holds own₀ own rb r t img s) (hua : upage % 4096 = 0)
    (hu : isUserVaddr upage) (f : Frame) (w : Bool) :
    wp (installPage (kva r) upage (kva f) w) s fun ok s' => (ok = false ∧ NoTrace s s') ∨
      (ok = true ∧ translate s.mem 3 r upage % 2 = 0 ∧ ∃ own',
        Stored own own' s s' r (some (kva r)) upage (leafEntry (kva f) w)) := by
  have hne : kva r ≠ s.basePml4 := by
    intro e
    have hrb : r = rb := kva_injective (e.trans h.base)
    have hroot := h.root
    rw [hrb, h.baseRoot] at hroot
    cases hroot
  rw [installPage, wp_bind, wp_pml4GetPage h.tables h.root hu]
  by_cases hp : translate s.mem 3 r upage &&& pteP = 0
  · simp only [mapped, if_pos hp]
    rw [and_pteP] at hp
    refine wp_mono (wp_pml4SetPage h.tables h.root (by simp) hne hua (kva_facts f).1 hu
      (kva_facts f).2.1 w) ?_
    rintro ok s' (⟨rfl, hs⟩ | ⟨rfl, hs⟩)
    · exact .inl ⟨rfl, hs⟩
    · exact .inr ⟨rfl, hp, hs⟩
  · simp only [mapped, if_neg hp, wp_pure]
    exact .inl ⟨trivial, noTrace_answers s s.answers⟩

/-- The stored entry adds the filled frame to the image. -/
theorem Holds.install (h : Holds own₀ own rb r t img s) (hu : isUserVaddr upage) {w : Bool}
    (hfree : own f = none) (hused : s.used f = true)
    (hbytes : ∀ i < 4096, s.mem (kva f + i) = bytes i) (hnew : translate s.mem 3 r upage % 2 = 0)
    {own' : Frame → Option Label}
    (hs : Stored own own' s s' r (some (kva r)) upage (leafEntry (kva f) w)) :
    Holds own₀ own' rb r t (img ++ [⟨upage, w, bytes⟩]) s' := by
  have hlt : ∀ va, isUserVaddr va → va < 2 ^ 48 := by
    intro va hva
    rw [isUserVaddr_iff] at hva
    omega
  have hself := fun va hva => hs.translate_self h.root (hlt va hva)
  have hval : leafEntry (kva f) w % 2 ^ 64 = leafEntry (kva f) w :=
    Nat.mod_eq_of_lt (leafEntry_kva f w).2
  -- a used page without a label is no table before or after, and is not written
  have hplain : ∀ g, own g = none → s.used g = true → own' g = none ∧ s'.used g = true ∧
      SamePage s.mem s'.mem g := by
    intro g hg hgu
    refine ⟨?_, hs.used g hgu, hs.page g hgu fun l hl => ?_⟩
    · cases hl : own' g with
      | none => rfl
      | some l =>
        rcases hs.fresh g l hl with hl' | ⟨hl', -, -⟩
        · rw [hg] at hl'
          cases hl'
        · rw [hgu] at hl'
          cases hl'
    · rw [hg] at hl
      cases hl
  refine ⟨fun g l hl => hs.keeps g l (h.keeps g l hl), hs.tables, hs.keeps rb _ h.baseRoot,
    hs.base.trans h.base, hs.keeps r _ h.root, ?_, ?_⟩
  · intro pg hpg
    rcases List.mem_append.1 hpg with hpg | hpg
    · obtain ⟨g, hown, hgu, hmap, hb⟩ := h.pages pg hpg
      obtain ⟨hown', hgu', hsame⟩ := hplain g hown hgu
      refine ⟨g, hown', hgu', ?_, fun i hi => (hsame _ (by omega) (by omega)).trans (hb i hi)⟩
      intro va hva hc
      rw [hself va hva, if_neg]
      · exact hmap va hva hc
      · intro hpage
        have hodd : leafEntry (kva g) pg.writable % 2 = 1 := by
          rw [(leafEntry_kva g pg.writable).1]
          split <;> omega
        have hcu : pg.Covers upage := hpage.symm.trans hc
        rw [hmap upage hu hcu] at hnew
        omega
    · obtain rfl := List.mem_singleton.1 hpg
      obtain ⟨hown', hgu', hsame⟩ := hplain f hfree hused
      refine ⟨f, hown', hgu', ?_, fun i hi => (hsame _ (by omega) (by omega)).trans (hbytes i hi)⟩
      intro va hva hc
      have hpage : va / 4096 = upage / 4096 := hc
      rw [hself va hva, if_pos hpage, hval]
  · intro va hva hno
    rw [hself va hva, if_neg]
    · exact h.rest va hva fun pg hpg => hno pg (List.mem_append_left _ hpg)
    · exact hno ⟨upage, w, bytes⟩ (List.mem_append_right _ (List.mem_singleton_self _))

/-- Installing a filled page returns, and extends the image or leaves no trace. -/
theorem wp_install_filled (h : Holds own₀ own rb r t img s) (hf : Filled s s' f bytes)
    (hua : upage % 4096 = 0) (hu : isUserVaddr upage) (w : Bool) :
    wp (installPage (kva r) upage (kva f) w) s' fun ok s'' => (ok = false ∧ NoTrace s' s'') ∨
      (ok = true ∧ ∃ own', Holds own₀ own' rb r t (img ++ [⟨upage, w, bytes⟩]) s'') := by
  have h' := h.filled hf
  have hfree : own f = none := by
    cases hl : own f with
    | none => rfl
    | some l => exact absurd rfl (h.tables.ne_free hl hf.free)
  have hused : s'.used f = true := by
    rw [hf.used]
    exact update_self ..
  refine wp_mono (wp_installPage h' hua hu f w) ?_
  rintro ok s'' (hfail | ⟨rfl, hnew, own', hs⟩)
  · exact .inl hfail
  · exact .inr ⟨rfl, own', h'.install hu hfree hused hf.bytes hnew hs⟩

end Steps

end Pintos.Userprog.Image
