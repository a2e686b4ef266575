import Pintos.Threads.MapRefinement

/-!
# The pages that a walk takes

A walk with `create` may need three new tables. The pages that a call obtains are named by the
answers of the allocator that it uses up. If the call fails, all of them are free again; if it
succeeds, they are the tables at the end of the way to the address, in the order in which they were
obtained (`PageWalk.Takes`), so there are at most three and each of them is part of the tree
(`InTree`).
-/

set_option autoImplicit false

namespace Pintos.Threads.WalkPages

open Function Lib.StateExcept Lib.ByteMemory List
open Vaddr Palloc Mmu
open PageTables PageWalk PageMap
open Isolation (firstMap)

/-! ## The tree and the way to an address -/

/-- The frame is a table at the given depth of the page map with top level `r`. -/
inductive InTree (m : Bytes) (r : Frame) : Nat → Frame → Prop where
  | root : InTree m r 3 r
  | child {d : Nat} {f g : Frame} {i : Nat} (h : InTree m r (d + 1) f) (hi : i < 512)
      (hg : target (entry m f i) = some g) : InTree m r d g

variable {m : Bytes} {d va : Nat} {f g r : Frame} {own : Frame → Option Label} {s s' : Machine}
  {o : Option Nat} {o' : Option Nat} {k j v i : Nat} {own' : Frame → Option Label}

theorem length_path_le (m : Bytes) (d : Nat) (f : Frame) (va : Nat) :
    (path m d f va).length ≤ d := by
  induction d generalizing f with
  | zero => exact le_rfl
  | succ d ih =>
    rw [path]
    cases target (entry m f (indexAt (d + 1) va)) with
    | none => exact Nat.zero_le _
    | some g => exact Nat.succ_le_succ (ih g)

/-- The tables on the way to an address are in the tree. -/
theorem inTree_of_mem_path (hf : InTree m r d f) (hg : g ∈ path m d f va) :
    ∃ e, InTree m r e g := by
  induction d generalizing f with
  | zero => cases hg
  | succ d ih =>
    cases ht : target (entry m f (indexAt (d + 1) va)) with
    | none =>
      rw [path, ht] at hg
      cases hg
    | some h =>
      have hh : InTree m r d h := InTree.child hf (indexAt_lt _ _) ht
      rw [path_of_target ht] at hg
      rcases mem_cons.1 hg with rfl | hg
      · exact ⟨d, hh⟩
      · exact ih hh hg

/-- The tables of the tree of a labelled top level are labelled. -/
theorem InTree.label (ht : Tables own s) (hr : own r = some ⟨o, 3, 0⟩) (h : InTree s.mem r d f) :
    ∃ o' k, own f = some ⟨o', d, k⟩ := by
  induction h with
  | root => exact ⟨o, 0, hr⟩
  | child _ hi hg ih =>
    obtain ⟨o', k, hf⟩ := ih
    obtain ⟨o'', hown, -⟩ := ht.child_of_target hf hi hg
    exact ⟨o'', _, hown⟩

/-- A store in a leaf entry leaves the tree. -/
theorem InTree.storeLeaf (ht : Tables own s) (hr : own r = some ⟨o, 3, 0⟩)
    (hg : own g = some ⟨o', 0, k⟩) (hj : j < 512) (h : InTree s.mem r d f) :
    InTree (PageMap.storeLeaf s g j v).mem r d f := by
  induction h with
  | root => exact InTree.root
  | child hf hi hch ih =>
    obtain ⟨o₁, k₁, hown⟩ := hf.label ht hr
    refine InTree.child ih hi ?_
    rw [storeLeaf_entry hg hj hown hi]
    exact hch

/-- The tree is kept where the entries of its tables are. -/
theorem InTree.congr {m' : Bytes}
    (h : ∀ d f, InTree m r (d + 1) f → ∀ i < 512, ∀ g, target (entry m f i) = some g →
      target (entry m' f i) = some g) (hf : InTree m r d f) :
    InTree m' r d f := by
  induction hf with
  | root => exact InTree.root
  | child hf hi hg ih => exact InTree.child ih hi (h _ _ hf _ hi _ hg)

/-- Walks that create tables keep the tree. -/
theorem InTree.grows {touch : Option Nat → Prop} (hgrows : Grows touch own own' s s')
    (ht : Tables own s) (hr : own r = some ⟨o, 3, 0⟩) (hf : InTree s.mem r d f) :
    InTree s'.mem r d f := by
  refine hf.congr ?_
  intro d f hf i hi g hg
  obtain ⟨o', k, hown⟩ := hf.label ht hr
  rw [hgrows.entries f _ hown i hi (target_ne_zero hg)]
  exact hg

/-- The tables on the way to `va` are labelled with the bits of `va`. -/
theorem label_of_mem_path (ht : Tables own s) (hf : own f = some ⟨o, d, part (d + 1) va⟩)
    (hg : g ∈ path s.mem d f va) : ∃ o' e, own g = some ⟨o', e, part (e + 1) va⟩ ∧ e < d := by
  induction d generalizing f o with
  | zero => cases hg
  | succ d ih =>
    cases htarget : target (entry s.mem f (indexAt (d + 1) va)) with
    | none =>
      rw [path, htarget] at hg
      cases hg
    | some h =>
      obtain ⟨o', hown, -⟩ := ht.child_of_target hf (indexAt_lt _ _) htarget
      rw [← part_eq] at hown
      rw [path_of_target htarget] at hg
      rcases mem_cons.1 hg with rfl | hg
      · exact ⟨o', d, hown, Nat.lt_succ_self d⟩
      · obtain ⟨o'', e, hl, he⟩ := ih hown hg
        exact ⟨o'', e, hl, by omega⟩

/-! ## The calls -/

/-- How a call that may add tables to the page map at `r` ends. The pages it obtained are `got`.
If it failed, the pages in use are those before, with every table of the map as it was. If it
succeeded, the pages in use are those before and `got`, at most three, each a table of the map. -/
def Outcome (s : Machine) (r : Frame) (ok : Bool) (s' : Machine) : Prop :=
  ∃ got, Obtained s got ∧
    if ok then
      s'.answers = s.answers.drop got.length ∧
      (∀ g, s'.used g = true ↔ s.used g = true ∨ g ∈ got) ∧ got.length ≤ 3 ∧
      ∀ g ∈ got, ∃ d, InTree s'.mem r d g
    else
      s'.answers = (s.answers.drop got.length).tail ∧ s'.used = s.used ∧
      ∀ d f, InTree s.mem r d f → ∀ i < 512, entry s'.mem f i = entry s.mem f i

section Calls

variable {own : Frame → Option Label} {s : Machine} {r : Frame}

theorem outcome_of_failed (ht : Tables own s) (hr : own r = some ⟨some 0, 3, 0⟩)
    (hnt : NoTrace s s') (htakes : Takes s r 3 va none s') :
    Outcome s r false s' := by
  obtain ⟨got, hgot, hans⟩ := htakes
  refine ⟨got, hgot, ?_⟩
  refine ⟨hans, hnt.used, ?_⟩
  intro d f hf i hi
  obtain ⟨o', k, hown⟩ := hf.label ht hr
  exact (hnt.page f (ht.used f _ hown).1).entry hi

theorem outcome_of_walked {pte : Nat} (htakes : Takes s r 3 va (some pte) s') :
    Outcome s r true s' := by
  obtain ⟨got, hgot, hans, hused, hpath⟩ := htakes
  refine ⟨got, hgot, ?_⟩
  refine ⟨hans, hused, ?_, ?_⟩
  · have hlen := length_path_le s'.mem 3 r va
    rw [hpath, length_append] at hlen
    omega
  · intro g hg
    have hmem : g ∈ path s'.mem 3 r va := by
      rw [hpath]
      exact mem_append_right _ hg
    exact inTree_of_mem_path InTree.root hmem

/-- Storing the leaf entry after a successful walk keeps the tables linked. -/
theorem Outcome.storeLeaf (h : Outcome s r true s') (ht : Tables own' s')
    (hr : own' r = some ⟨some 0, 3, 0⟩) (hg : own' g = some ⟨o', 0, k⟩) (hj : j < 512) :
    Outcome s r true (PageMap.storeLeaf s' g j v) := by
  obtain ⟨got, hgot, hok⟩ := h
  obtain ⟨hans, hused, hlen, htree⟩ := hok
  refine ⟨got, hgot, ?_⟩
  refine ⟨hans, hused, hlen, ?_⟩
  intro h' hh'
  obtain ⟨d, hd⟩ := htree h' hh'
  exact ⟨d, hd.storeLeaf ht hr hg hj⟩

/-- A call of `pml4_set_page` that succeeds has walked and stored the leaf entry. -/
theorem wlp_pml4SetPage_walked (ht : Tables own s) (hr : own r = some ⟨o, 3, 0⟩) (ho : o ≠ none)
    (upage kpage : Nat) (rw : Bool) :
    wlp (pml4SetPage (kva r) upage kpage rw) s fun ok s' => ok = true →
      pgOfs upage = 0 ∧ isUserVaddr upage ∧ ∃ pte t, Walked own s r o 3 upage (some pte) t ∧
        Takes s r 3 upage (some pte) t ∧
        s' = { t with mem := writeLE t.mem 8 pte (leafEntry kpage rw) } := by
  simp only [pml4SetPage, wlp_bind, wlp_check, wlp_get]
  intro hua _ hu _
  have hr' : own r = some ⟨o, 3, part (3 + 1) upage⟩ := by rw [user_key hu]; exact hr
  have hwalk := pml4eWalk_createsLeaf own s r o upage ht hr' fun _ h => absurd h ho
  refine wlp_mono (wlp_of_wp hwalk) ?_
  rintro pte t ⟨hw, htakes⟩
  cases pte with
  | none =>
    rw [wlp_pure]
    exact fun h => (by cases h)
  | some pte =>
    simp only [vtop, wlp_bind, wlp_check, wlp_pure, write64, wlp_modify]
    exact fun _ _ => ⟨hua, hu, pte, t, hw, htakes, rfl⟩

end Calls

/-- A walk with `create`, and so `pml4_set_page`, that fails leaves the page map and the page
allocator as they were, whatever the allocator answered on the way; one that succeeds has taken at
most three pages and made each of them a table of the map. -/
theorem failed_walk_leaves_no_trace {s : Machine} {r : Frame} (hmap : PageMapAt s r) :
    (∀ va, wp (pml4eWalk (kva r) va true) s fun pte s' => Outcome s r pte.isSome s') ∧
    ∀ upage kpage rw, pgOfs upage = 0 → pgOfs kpage = 0 → isUserVaddr upage →
      isKernelVaddr kpage → kva r ≠ s.basePml4 →
        wp (pml4SetPage (kva r) upage kpage rw) s fun ok s' => Outcome s r ok s' := by
  obtain ⟨own, ht, hr⟩ := hmap
  have hwalk : ∀ va, wp (pml4eWalk (kva r) va true) s fun pte s' =>
      Walked own s r (some 0) 3 (va % 2 ^ 48) pte s' ∧ Takes s r 3 (va % 2 ^ 48) pte s' := by
    intro va
    rw [pml4eWalk_mod]
    exact pml4eWalk_createsLeaf own s r _ _ ht (root_key hr va) fun _ h => (by cases h)
  constructor
  · intro va
    refine wp_mono (hwalk va) ?_
    rintro pte s' ⟨hw, htakes⟩
    cases pte with
    | none => exact outcome_of_failed ht hr hw htakes
    | some pte => exact outcome_of_walked htakes
  · intro upage kpage rw hua hka hu hk hbase
    simp only [pml4SetPage, wp_bind, wp_check, wp_get, hua, hka, hu, hbase, ne_eq,
      not_false_eq_true, true_and]
    refine wp_mono (hwalk upage) ?_
    rintro pte s' ⟨hw, htakes⟩
    cases pte with
    | none =>
      rw [wp_pure]
      exact outcome_of_failed ht hr hw htakes
    | some pte =>
      obtain ⟨own', g, o', rfl, ht', hg, hown, -, -⟩ := hw
      simp only [wp_bind, wp_vtop, wp_pure, wp_write64]
      exact ⟨hk, (outcome_of_walked htakes).storeLeaf ht' (hg.keeps r _ hr) hown (indexAt_lt _ _)⟩

/-- Two page maps, and an allocator that finds one page more. -/
def onePageLeft : Machine :=
  { Isolation.twoMaps.machine with answers := [some ⟨6, by decide⟩, none] }

/-- The second search finds nothing: the walk fails after it has made one table. -/
theorem failed_walk_leaves_no_trace_onePageLeft :
    ∃ s', pml4eWalk (kva firstMap) 0x400000 true onePageLeft = .ok (none, s') ∧
      Outcome onePageLeft firstMap false s' := by
  obtain ⟨own, ht, hr⟩ : PageMapAt Isolation.twoMaps.machine firstMap :=
    MapRefinement.pageMapAt_of_run Isolation.booted_eq Isolation.twoMaps_eq (by decide +kernel)
  have hmap : PageMapAt onePageLeft firstMap := ⟨own, (noTrace_answers _ _).tables ht, hr⟩
  obtain ⟨pte, s', hrun, hout⟩ := (failed_walk_leaves_no_trace hmap).1 0x400000
  have hnone : (result (pml4eWalk (kva firstMap) 0x400000 true) onePageLeft).toOption =
      some none := by
    decide +kernel
  rw [result, hrun] at hnone
  cases hnone
  exact ⟨s', hrun, hout⟩

end Pintos.Threads.WalkPages
