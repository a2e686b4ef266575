import Pintos.Lib.RadixTree
import Pintos.Threads.Traversal

/-!
# Tearing a page map down

`pml4_destroy` frees the tables below entry 0 of the top level, the frames that their leaf entries
map and the top level itself. It reads a table's entries while it frees what they name, so the
order matters: `wp_destroyAt` says that the recursion frees the nodes of the tree in postorder, each
once, provided that no node occurs twice.

For a page map made by `pml4_create` and `pml4_set_page` every node has its own place
(`Built.located`), so the tree is what the calls took. That is all of it exactly when no page was
mapped at `2 ^ 39` or above: such a page is a user page for `pml4_set_page`, but `pml4_destroy`
takes it to be the kernel's (`destroy_frees_all_iff`).
-/

set_option autoImplicit false

namespace Pintos.Threads.Teardown

open Function Lib.StateExcept Lib.ByteMemory Lib.Runs Lib.RadixTree List
open Vaddr Palloc Mmu
open PageTables PageWalk PageMap
open WalkPages Traversal

/-! ## Freeing a tree -/

/-- What entry `i` of the page `f` names. -/
def child (m : Bytes) (f : Frame) (i : Nat) : Option Frame := target (entry m f i)

/-- The functions that destroy a frame, a page table and the tables above it. -/
def destroyAt : Nat → Nat → KernelM Unit
  | 0 => pallocFreePage
  | d + 1 => tableDestroy (destroyAt d)

theorem destroyAt_three : destroyAt 3 = pdpeDestroy := rfl

/-- Down to height `d`, an entry names a frame or is not present. -/
def Sound (m : Bytes) : Nat → Frame → Prop
  | 0, _ => True
  | d + 1, f => ∀ i < 512, (child m f i = none → entry m f i % 2 = 0) ∧
      ∀ g, child m f i = some g → Sound m d g

/-- Between `s` and `t` the pages of `l` have been given back. -/
structure Freed (s : Machine) (l : List Frame) (t : Machine) : Prop where
  used : ∀ f, t.used f = true ↔ s.used f = true ∧ f ∉ l
  pool : t.poolOf = s.poolOf
  base : t.basePml4 = s.basePml4
  page : ∀ f, f ∉ l → SamePage s.mem t.mem f

theorem freed_nil (s : Machine) : Freed s [] s :=
  ⟨fun _ => by simp, rfl, rfl, fun f _ => SamePage.refl s.mem f⟩

variable {s : Machine} {f g : Frame} {i : Nat}

theorem Freed.append {t u : Machine} {l l' : List Frame} (h : Freed s l t) (h' : Freed t l' u) :
    Freed s (l ++ l') u where
  used := by
    intro f
    rw [h'.used f, h.used f, mem_append, not_or, and_assoc]
  pool := h'.pool.trans h.pool
  base := h'.base.trans h.base
  page := by
    intro f hf
    rw [mem_append, not_or] at hf
    exact (h.page f hf.1).trans (h'.page f hf.2)

theorem freed_release (s : Machine) (f : Frame) : Freed s [f] (s.release f) where
  used := by
    intro g
    by_cases hgf : g = f
    · subst hgf
      simp [Machine.release]
    · simp [Machine.release, hgf]
  pool := rfl
  base := rfl
  page := by
    intro g hg
    have hgf : g ≠ f := fun e => hg (mem_singleton.2 e)
    exact samePage_page (c := fun _ => 0xcc) hgf

theorem Freed.child {t : Machine} {l : List Frame} (h : Freed s l t) (hf : f ∉ l) (hi : i < 512) :
    Teardown.child t.mem f i = Teardown.child s.mem f i := by
  rw [Teardown.child, Teardown.child, (h.page f hf).entry hi]

/-- Nodes that have not been freed name what they named. -/
theorem sound_congr {m m' : Bytes} (d : Nat) : ∀ f : Frame, Sound m d f →
    (∀ x ∈ postorder (child m) 512 d f, SamePage m m' x) → Sound m' d f := by
  induction d with
  | zero => exact fun _ _ _ => trivial
  | succ d ih =>
    intro f hs hsame i hi
    obtain ⟨hnone, hsome⟩ := hs i hi
    have hent : entry m' f i = entry m f i := (hsame f (mem_postorder_self _ f)).entry hi
    rw [child, hent, ← child]
    refine ⟨hnone, ?_⟩
    intro g hg
    refine ih g (hsome g hg) ?_
    intro x hx
    refine hsame x ?_
    rw [postorder_succ, mem_append, mem_flatMap]
    refine .inl ⟨i, mem_range.2 hi, ?_⟩
    rw [below, hg]
    exact hx

/-- An entry that is not present is not present after `ptov` either. -/
theorem ptov_even {e : Nat} (h : e % 2 = 0) : ptov e &&& pteP = 0 := by
  rw [and_pteP, ptov, Nat.mod_mod_of_dvd _ (by norm_num)]
  simp only [kernBase]
  omega

/-- Destroying a tree frees its nodes in postorder. -/
theorem wp_destroyAt (d : Nat) : ∀ (f : Frame) (s : Machine), Sound s.mem d f →
    (postorder (child s.mem) 512 d f).Nodup →
    (∀ x ∈ postorder (child s.mem) 512 d f, s.used x = true ∧ s.poolOf x ≠ none) →
      wp (destroyAt d (kva f)) s fun _ t => Freed s (postorder (child s.mem) 512 d f) t := by
  induction d with
  | zero =>
    intro f s _ _ hall
    obtain ⟨hused, hpool⟩ := hall f (mem_postorder_self 0 f)
    exact wp_pallocFreePage hpool hused (freed_release s f)
  | succ d ih =>
    intro f s hsound hnodup hall
    rw [postorder_succ] at hnodup hall ⊢
    obtain ⟨hflat, -, hlast⟩ := nodup_append.1 hnodup
    obtain ⟨hparts, hdisj⟩ := nodup_flatMap.1 hflat
    have hf : f ∉ (List.range 512).flatMap (below (child s.mem) 512 d f) :=
      fun hmem => hlast f hmem f (mem_singleton.2 rfl) rfl
    -- after `i` rounds the first `i` subtrees have been freed, and no other page
    have hround : ∀ i < 512, ∀ t,
        Freed s ((List.range i).flatMap (below (child s.mem) 512 d f)) t →
          wp (do let entry := ptov (← read64 (kva f + 8 * i))
                 if entry &&& pteP ≠ 0 then destroyAt d (pteAddr entry)) t fun _ t' =>
            Freed s ((List.range (i + 1)).flatMap (below (child s.mem) 512 d f)) t' := by
      intro i hi t ht
      have hpre : ∀ x, x ∈ (List.range i).flatMap (below (child s.mem) 512 d f) →
          x ∈ (List.range 512).flatMap (below (child s.mem) 512 d f) := by
        intro x hx
        obtain ⟨j, hj, hx⟩ := mem_flatMap.1 hx
        have hji := mem_range.1 hj
        exact mem_flatMap.2 ⟨j, mem_range.2 (by omega), hx⟩
      have hent : readLE t.mem 8 (kva f + 8 * i) = entry s.mem f i :=
        (ht.page f fun hx => hf (hpre f hx)).entry hi
      rw [range_succ, flatMap_append, flatMap_singleton]
      rw [wp_bind, wp_read64, hent]
      obtain ⟨hnone, hsome⟩ := hsound i hi
      cases hg : child s.mem f i with
      | none =>
        rw [if_neg (not_not.2 (ptov_even (hnone hg))), wp_pure, below, hg, append_nil]
        exact ht
      | some g =>
        obtain ⟨hp, ha⟩ := ptov_target (entry_lt s.mem f i) hg
        have hbelow : below (child s.mem) 512 d f i = postorder (child s.mem) 512 d g := by
          rw [below, hg]
        have hapart : ∀ x ∈ postorder (child s.mem) 512 d g,
            x ∉ (List.range i).flatMap (below (child s.mem) 512 d f) := by
          intro x hx hmem
          obtain ⟨j, hj, hxj⟩ := mem_flatMap.1 hmem
          have hji := mem_range.1 hj
          rw [← hbelow] at hx
          have hpair := pairwise_iff_getElem.1 hdisj j i (by simp; omega) (by simpa) hji
          simp only [getElem_range] at hpair
          exact hpair hxj hx
        have hlist : postorder (child t.mem) 512 d g = postorder (child s.mem) 512 d g :=
          postorder_congr d g fun x hx i hi => ht.child (hapart x hx) hi
        rw [if_pos hp, ha, hbelow]
        refine wp_mono (ih g t ?_ ?_ ?_) ?_
        · exact sound_congr d g (hsome g hg) fun x hx => ht.page x (hapart x hx)
        · rw [hlist, ← hbelow]
          exact hparts i (mem_range.2 hi)
        · intro x hx
          rw [hlist] at hx
          have hmem : x ∈ (List.range 512).flatMap (below (child s.mem) 512 d f) := by
            refine mem_flatMap.2 ⟨i, mem_range.2 hi, ?_⟩
            rw [hbelow]
            exact hx
          obtain ⟨hu, hpl⟩ := hall x (mem_append_left _ hmem)
          rw [ht.pool]
          exact ⟨(ht.used x).2 ⟨hu, hapart x hx⟩, hpl⟩
        · rintro - t' ht'
          rw [hlist] at ht'
          exact ht.append ht'
    rw [destroyAt, tableDestroy, wp_bind]
    refine wp_mono (wp_forM_range (freed_nil s) hround) ?_
    rintro - t ht
    obtain ⟨hu, hpl⟩ := hall f (mem_append_right _ (mem_singleton.2 rfl))
    refine wp_pallocFreePage ?_ ((ht.used f).2 ⟨hu, hf⟩) (ht.append (freed_release t f))
    rw [ht.pool]
    exact hpl

/-! ## Building a page map -/

/-- A page mapped by `pml4_set_page`. -/
structure Mapping where
  upage : Nat
  frame : Frame
  rw : Bool

/-- What a process does on the way: obtain a page of the user pool, or map one. -/
inductive BuildOp where
  | getFrame (zero : Bool)
  | mapPage (m : Mapping)

/-- One call. Only frames of the user pool that are in use are mapped, and only calls that succeed
count. -/
def step (pml4 : Nat) (s : Machine) : BuildOp → Option Machine
  | .getFrame zero =>
    match pallocGetPage { zero := zero, user := true } s with
    | .ok (_, t) => some t
    | .error _ => none
  | .mapPage m =>
    if s.poolOf m.frame = some .user ∧ s.used m.frame = true then
      match pml4SetPage pml4 m.upage (kva m.frame) m.rw s with
      | .ok (true, t) => some t
      | _ => none
    else none

/-- The pages that the calls map. -/
def mappings (ops : List BuildOp) : List Mapping :=
  ops.filterMap fun
    | .getFrame _ => none
    | .mapPage m => some m

/-- The base page map is a well-formed page map with nothing at index 0, as `paging_init` leaves
it. -/
def KernelMap (s : Machine) : Prop :=
  ∃ own rb, Tables own s ∧ own rb = some ⟨none, 3, 0⟩ ∧ s.basePml4 = kva rb ∧
    ∀ f l, own f = some l → l.owner = none

/-- The map at `r` maps a frame of the user pool at a user page. -/
structure Maps (s : Machine) (r : Frame) (m : Mapping) : Prop where
  pool : s.poolOf m.frame = some .user
  used : s.used m.frame = true
  aligned : m.upage % 4096 = 0
  user : isUserVaddr m.upage
  mapped : translate s.mem 3 r m.upage = leafEntry (kva m.frame) m.rw

/-- The page map at `r`, made since `s₀`, with the pages `l` mapped. Its own tables are linked, were
free in `s₀`, and with the pages in use before they are all the kernel pages in use; below `2 ^ 39`
the map translates the pages of `l` and nothing else. -/
structure Built (s₀ : Machine) (r : Frame) (own : Frame → Option Label) (l : List Mapping)
    (s : Machine) : Prop where
  tables : Tables own s
  root : own r = some ⟨some (kva r), 3, 0⟩
  owners : ∀ f lb, own f = some lb → lb.owner = none ∨ lb.owner = some (kva r)
  linked : ∀ f d k, own f = some ⟨some (kva r), d, k⟩ → InTree s.mem r d f
  fresh : ∀ f d k, own f = some ⟨some (kva r), d, k⟩ → s₀.used f = false
  mono : ∀ f, s₀.used f = true → s.used f = true
  used : ∀ f, s.poolOf f = some .kernel → s.used f = true → s₀.used f = true ∨ ∃ lb, own f = some lb
  pool : s.poolOf = s₀.poolOf
  base : s.basePml4 ≠ kva r
  pages : ∀ m ∈ l, Maps s r m
  low : ∀ va < 2 ^ 39, translate s.mem 3 r va = 0 ∨ ∃ m ∈ l, m.upage / 4096 = va / 4096 ∧
    translate s.mem 3 r va = leafEntry (kva m.frame) m.rw
  lowOnly : (∀ m ∈ l, m.upage < 2 ^ 39) →
    (∀ f lb, own f = some lb → lb.owner = none → s₀.used f = true) ∧
      ∀ f d k, own f = some ⟨some (kva r), d, k⟩ → d ≤ 2 → k < 512 ^ (2 - d)

theorem indexAt_low {va : Nat} (h : va < 2 ^ 39) : indexAt 3 va = 0 := by
  have h39 : part 3 va = 0 := Nat.div_eq_of_lt h
  rw [indexAt, h39]

/-- A new page map is a copy of the base page map, which has nothing at index 0. -/
theorem built_create {s₀ : Machine} (hk : KernelMap s₀) (hpool : s₀.poolOf g = some .kernel)
    (hfree : s₀.used g = false) :
    ∃ own, Built s₀ g own [] (newMap s₀ g) := by
  obtain ⟨own, rb, ht, hroot, hbase, howner⟩ := hk
  have ht' := newMap_tables ht hroot hbase hpool hfree
  have hself : labelMap own g g = some ⟨some (kva g), 3, 0⟩ := update_self ..
  have hcases : ∀ f lb, labelMap own g f = some lb →
      (f = g ∧ lb = ⟨some (kva g), 3, 0⟩) ∨ own f = some lb := by
    intro f lb hl
    by_cases hfg : f = g
    · subst hfg
      rw [hself] at hl
      exact .inl ⟨rfl, (Option.some.inj hl).symm⟩
    · exact .inr ((update_of_ne hfg _ _).symm.trans hl)
  have hprivate : ∀ f d k, labelMap own g f = some ⟨some (kva g), d, k⟩ → f = g ∧ d = 3 := by
    intro f d k hl
    rcases hcases f _ hl with ⟨rfl, heq⟩ | hold
    · cases heq
      exact ⟨rfl, rfl⟩
    · have hnone := howner f _ hold
      cases hnone
  have hzero : entry s₀.mem rb 0 = 0 := by
    rcases ht.child rb none 2 0 hroot 0 (by norm_num) with h0 | ⟨g', o', -, hown, -, hidx⟩
    · exact h0
    · exact absurd rfl (hidx rfl (howner g' _ hown))
  refine ⟨labelMap own g, ht', hself, ?_, ?_, ?_, ?_, ?_, rfl, ?_, fun m hm => (by cases hm), ?_,
    fun _ => ⟨?_, ?_⟩⟩
  · intro f lb hl
    rcases hcases f lb hl with ⟨-, rfl⟩ | hold
    · exact .inr rfl
    · exact .inl (howner f lb hold)
  · intro f d k hl
    obtain ⟨rfl, rfl⟩ := hprivate f d k hl
    exact InTree.root
  · intro f d k hl
    obtain ⟨rfl, -⟩ := hprivate f d k hl
    exact hfree
  · intro f hf
    exact (update_of_ne (ne_of_used hf hfree) _ _).trans hf
  · intro f _ hf
    by_cases hfg : f = g
    · subst hfg
      exact .inr ⟨_, hself⟩
    · exact .inl ((update_of_ne hfg _ _).symm.trans hf)
  · change s₀.basePml4 ≠ kva g
    rw [hbase]
    exact fun e => ht.ne_free hroot hfree (kva_injective e)
  · intro va hva
    refine .inl ?_
    rw [PageTables.translate, indexAt_low hva, newMap_entry hbase (by norm_num), hzero]
    rfl
  · intro f lb hl hnone
    rcases hcases f lb hl with ⟨-, rfl⟩ | hold
    · cases hnone
    · exact (ht.used f lb hold).1
  · intro f d k hl hd
    obtain ⟨-, rfl⟩ := hprivate f d k hl
    omega

variable {m : Mapping}

section Steps

variable {s₀ s t : Machine} {r : Frame} {own : Frame → Option Label} {l : List Mapping}

/-- Changes outside the pages in use and outside the kernel pool do not matter. -/
theorem Built.congr (h : Built s₀ r own l s) (hused : ∀ f, s.used f = true → t.used f = true)
    (hkernel : ∀ f, s.poolOf f = some .kernel → t.used f = true → s.used f = true)
    (hpool : t.poolOf = s.poolOf) (hbase : t.basePml4 = s.basePml4)
    (hpage : ∀ f, s.used f = true → SamePage s.mem t.mem f) : Built s₀ r own l t := by
  have hsame : ∀ f lb, own f = some lb → SamePage s.mem t.mem f :=
    fun f lb hl => hpage f (h.tables.used f lb hl).1
  have htrans : ∀ va, translate t.mem 3 r va = translate s.mem 3 r va :=
    fun va => h.tables.translate_congr hsame va 3 r _ 0 h.root
  refine ⟨⟨?_, ?_⟩, h.root, h.owners, ?_, h.fresh, ?_, ?_, hpool.trans h.pool,
    hbase ▸ h.base, ?_, ?_, h.lowOnly⟩
  · intro f lb hl
    obtain ⟨hu, hp⟩ := h.tables.used f lb hl
    exact ⟨hused f hu, by rw [hpool]; exact hp⟩
  · intro f o d k hl i hi
    rw [(hsame f _ hl).entry hi]
    exact h.tables.child f o d k hl i hi
  · intro f d k hl
    refine (h.linked f d k hl).congr ?_
    intro d f hf i hi g hg
    obtain ⟨o', k', hown⟩ := hf.label h.tables h.root
    rw [(hsame f _ hown).entry hi]
    exact hg
  · exact fun f hf => hused f (h.mono f hf)
  · intro f hp hf
    rw [hpool] at hp
    exact h.used f hp (hkernel f hp hf)
  · intro m hm
    obtain ⟨hp, hu, hal, huser, hmap⟩ := h.pages m hm
    exact ⟨by rw [hpool]; exact hp, hused _ hu, hal, huser, (htrans _).trans hmap⟩
  · intro va hva
    rw [htrans]
    exact h.low va hva

/-- Obtaining a page of the user pool. -/
theorem Built.getFrame (h : Built s₀ r own l s) (zero : Bool) {a : Option Nat}
    (hrun : pallocGetPage { zero := zero, user := true } s = .ok (a, t)) :
    Built s₀ r own l t := by
  have hget : wp (pallocGetPage { zero := zero, user := true }) s fun _ t =>
      Built s₀ r own l t := by
    apply wp_pallocGetPage rfl
    · intro f hpool hfree
      refine h.congr ?_ ?_ rfl rfl ?_
      · intro g hg
        exact (update_of_ne (ne_of_used hg hfree) _ _).trans hg
      · intro g hp hg
        have hgf : g ≠ f := by
          rintro rfl
          rw [hpool] at hp
          cases hp
        exact (update_of_ne hgf _ _).symm.trans hg
      · intro g hg
        have hgf : g ≠ f := ne_of_used hg hfree
        cases zero with
        | true => exact samePage_page (c := fun _ => 0) hgf
        | false => exact SamePage.refl s.mem g
    · exact h.congr (fun _ hf => hf) (fun _ _ hf => hf) rfl rfl fun f _ => SamePage.refl s.mem f
  exact wlp_of_wp hget a t hrun

/-- Mapping a page that is not yet mapped. -/
theorem Built.mapPage (h : Built s₀ r own l s) (hpool : s.poolOf m.frame = some .user)
    (hused : s.used m.frame = true) (hnew : ∀ m' ∈ l, m'.upage ≠ m.upage)
    (hrun : pml4SetPage (kva r) m.upage (kva m.frame) m.rw s = .ok (true, t)) :
    ∃ own', Built s₀ r own' (l ++ [m]) t := by
  obtain ⟨hua, hu, pte, t₁, hw, htakes, rfl⟩ := wlp_pml4SetPage_walked h.tables h.root
    (Option.some_ne_none _) m.upage (kva m.frame) m.rw true t hrun rfl
  obtain ⟨own', g, o', rfl, ht', hg, hown, hv, hleaf⟩ := hw
  obtain ⟨got, hgot, -, hused', hpath⟩ := htakes
  have hst := stored_of_grows (v := leafEntry (kva m.frame) m.rw) h.root ht' hg hown hv hleaf
  have hr' := hg.keeps r _ h.root
  rw [pgOfs_eq] at hua
  have hself : ∀ va < 2 ^ 48, translate (PageMap.storeLeaf t₁ g (indexAt 0 m.upage)
      (leafEntry (kva m.frame) m.rw)).mem 3 r va =
        if va / 4096 = m.upage / 4096 then leafEntry (kva m.frame) m.rw
        else translate s.mem 3 r va := by
    intro va hva
    rw [hst.translate_self h.root hva, Nat.mod_eq_of_lt (leafEntry_kva _ _).2]
  -- a new label belongs to a table on the way to the page
  have hfresh : ∀ f lb, own' f = some lb → own f = some lb ∨ (f ∈ path t₁.mem 3 r m.upage ∧
      s.used f = false ∧ Visits (some (kva r)) 3 m.upage lb.owner ∧ lb.depth ≤ 2) := by
    intro f lb hl
    rcases hg.fresh f lb hl with hold | ⟨hu0, hvis, hd⟩
    · exact .inl hold
    · refine .inr ⟨?_, hu0, hvis, hd⟩
      rcases (hused' f).1 (ht'.used f lb hl).1 with h1 | h1
      · rw [hu0] at h1
        cases h1
      · rw [hpath]
        exact mem_append_right _ h1
  have hfreshPath : ∀ f lb, own' f = some lb → f ∈ path t₁.mem 3 r m.upage →
      InTree t₁.mem r lb.depth f ∧ lb.key = part (lb.depth + 1) m.upage := by
    intro f lb hl hmem
    obtain ⟨e, he⟩ := inTree_of_mem_path InTree.root hmem
    obtain ⟨o₁, k₁, hl₁⟩ := he.label ht' hr'
    obtain ⟨o₂, e₂, hl₂, -⟩ := label_of_mem_path ht' (by rw [user_key hu]; exact hr') hmem
    rw [hl] at hl₁ hl₂
    cases hl₁
    cases hl₂
    exact ⟨he, rfl⟩
  change ∃ own', Built s₀ r own' (l ++ [m]) (PageMap.storeLeaf t₁ g (indexAt 0 m.upage)
    (leafEntry (kva m.frame) m.rw))
  refine ⟨own', hst.tables, hr', ?_, ?_, ?_, ?_, ?_, hg.pool.trans h.pool, ?_, ?_, ?_, ?_⟩
  · intro f lb hl
    rcases hfresh f lb hl with hold | ⟨-, -, hvis, -⟩
    · exact h.owners f lb hold
    · rcases hvis with hvis | ⟨-, hvis, -⟩
      · exact .inr hvis
      · exact .inl hvis
  · intro f d k hl
    have htree : InTree t₁.mem r d f := by
      rcases hfresh f _ hl with hold | ⟨hmem, -, -, -⟩
      · exact (h.linked f d k hold).grows hg h.tables h.root
      · exact (hfreshPath f _ hl hmem).1
    exact htree.storeLeaf ht' hr' hown (indexAt_lt _ _)
  · intro f d k hl
    rcases hfresh f _ hl with hold | ⟨-, hu0, -, -⟩
    · exact h.fresh f d k hold
    · cases hs₀ : s₀.used f with
      | false => rfl
      | true => exact absurd rfl (ne_of_used (h.mono f hs₀) hu0)
  · exact fun f hf => hg.used f (h.mono f hf)
  · intro f hp hf
    rcases hg.usedNew f hf with hold | hl
    · rcases h.used f (by rw [← hg.pool]; exact hp) hold with h1 | ⟨lb, hl⟩
      · exact .inl h1
      · exact .inr ⟨lb, hg.keeps f lb hl⟩
    · exact .inr hl
  · change t₁.basePml4 ≠ kva r
    rw [hg.base]
    exact h.base
  · refine forall_mem_append.2 ⟨fun m' hm' => ?_, forall_mem_singleton.2 ?_⟩
    · obtain ⟨hp', hu', hal, huser, hmap⟩ := h.pages m' hm'
      refine ⟨(congrFun hg.pool _).trans hp', hg.used _ hu', hal, huser, ?_⟩
      -- pages are aligned, so different ones are different numbers of pages
      have hne := hnew m' hm'
      rw [hself _ (Isolation.user_lt huser), if_neg (by omega)]
      exact hmap
    · refine ⟨(congrFun hg.pool _).trans hpool, hg.used _ hused, hua, hu, ?_⟩
      rw [hself _ (Isolation.user_lt hu), if_pos rfl]
  · intro va hva
    rw [hself va (by omega)]
    split_ifs with hpg
    · exact .inr ⟨m, mem_append_right _ (mem_singleton.2 rfl), hpg.symm, rfl⟩
    · rcases h.low va hva with h0 | ⟨m', hm', hpg', htr⟩
      · exact .inl h0
      · exact .inr ⟨m', mem_append_left _ hm', hpg', htr⟩
  · rw [forall_mem_append, forall_mem_singleton]
    rintro ⟨hold, hm⟩
    obtain ⟨hkernel, hkeys⟩ := h.lowOnly hold
    refine ⟨fun f lb hl hnone => ?_, fun f d k hl hd => ?_⟩
    · -- below `2 ^ 39` the walk stays in the tables of this page map
      rcases hfresh f lb hl with hl | ⟨-, -, hvis | ⟨-, -, hidx⟩, -⟩
      · exact hkernel f lb hl hnone
      · rw [hvis] at hnone
        cases hnone
      · exact absurd (indexAt_low hm) hidx
    · rcases hfresh f _ hl with hl' | ⟨hmem, -, -, -⟩
      · exact hkeys f d k hl' hd
      · have hkey : k = part (d + 1) m.upage := (hfreshPath f _ hl hmem).2
        rw [hkey, part]
        apply Nat.div_lt_of_lt_mul
        refine lt_of_lt_of_le hm (le_of_eq ?_)
        interval_cases d <;> norm_num

/-- A whole run of calls. -/
theorem run_built {ops : List BuildOp} (h : Built s₀ r own l s)
    (hpages : ((l ++ mappings ops).map Mapping.upage).Nodup)
    (hrun : run (step (kva r)) s ops = some t) : ∃ own', Built s₀ r own' (l ++ mappings ops) t := by
  induction ops generalizing s own l with
  | nil =>
    cases hrun
    exact ⟨own, by simpa [mappings] using h⟩
  | cons op ops ih =>
    obtain ⟨s₁, hstep, hrest⟩ := run_cons_iff.1 hrun
    cases op with
    | getFrame zero =>
      simp only [step] at hstep
      split at hstep
      · rename_i a s₂ hget
        cases hstep
        exact ih (h.getFrame zero hget) hpages hrest
      · cases hstep
    | mapPage m =>
      simp only [step] at hstep
      split at hstep
      · rename_i hframe
        split at hstep
        · rename_i s₂ hset
          cases hstep
          have hlist : l ++ mappings (BuildOp.mapPage m :: ops) = l ++ [m] ++ mappings ops := by
            simp [mappings]
          rw [hlist] at hpages ⊢
          have hnew : ∀ m' ∈ l, m'.upage ≠ m.upage := by
            intro m' hm' heq
            rw [append_assoc, map_append, nodup_append] at hpages
            exact hpages.2.2 m'.upage (mem_map_of_mem hm') m.upage (by simp) heq
          obtain ⟨own', h'⟩ := h.mapPage hframe.1 hframe.2 hnew hset
          exact ih h' hpages hrest
        · cases hstep
      · cases hstep

end Steps

/-! ## Places -/

/-- The place of a page below entry 0 of the top level `r`: a table of this page map has the height
and the address bits of its label, a mapped frame the number of its page. -/
def place (own : Frame → Option Label) (r : Frame) (l : List Mapping) (x : Frame) :
    Option (Nat × Nat) :=
  match own x with
  | some lb =>
    if lb.owner = some (kva r) ∧ lb.depth ≤ 2 ∧ lb.key < 512 ^ (2 - lb.depth) then
      some (lb.depth + 1, lb.key)
    else none
  | none =>
    (l.find? fun m => m.frame = x ∧ m.upage < 2 ^ 39).map fun m => (0, m.upage / 4096)

section Places

variable {s₀ t : Machine} {r : Frame} {own : Frame → Option Label} {l : List Mapping} {x : Frame}
  {d k : Nat}

theorem place_table (hx : own x = some ⟨some (kva r), d, k⟩) (hd : d ≤ 2) (hk : k < 512 ^ (2 - d)) :
    place own r l x = some (d + 1, k) := by
  rw [place, hx]
  exact if_pos ⟨rfl, hd, hk⟩

theorem Built.unlabelled (h : Built s₀ r own l t) (hm : m ∈ l) :
    own m.frame = none := by
  cases hl : own m.frame with
  | none => rfl
  | some lb =>
    -- tables are pages of the kernel pool
    have hk := (h.tables.used m.frame lb hl).2
    rw [(h.pages m hm).pool] at hk
    cases hk

theorem Built.place_frame (h : Built s₀ r own l t) (hframes : (l.map Mapping.frame).Nodup)
    (hm : m ∈ l) (hlow : m.upage < 2 ^ 39) :
    place own r l m.frame = some (0, m.upage / 4096) := by
  rw [place, h.unlabelled hm]
  have hfind : l.find? (fun m' => m'.frame = m.frame ∧ m'.upage < 2 ^ 39) = some m := by
    cases hf : l.find? (fun m' => m'.frame = m.frame ∧ m'.upage < 2 ^ 39) with
    | none =>
      exact absurd (decide_eq_true ⟨rfl, hlow⟩) (List.find?_eq_none.1 hf m hm)
    | some m' =>
      have hm' := mem_of_find?_eq_some hf
      have hprop := List.find?_some hf
      simp only [decide_eq_true_eq] at hprop
      rw [inj_on_of_nodup_map hframes hm' hm hprop.1]
  rw [hfind]
  rfl

/-- What has a place. -/
theorem place_cases (h : place own r l x = some (d, k)) :
    (∃ e, d = e + 1 ∧ own x = some ⟨some (kva r), e, k⟩ ∧ e ≤ 2 ∧ k < 512 ^ (2 - e)) ∨
    (d = 0 ∧ own x = none ∧ ∃ m ∈ l, m.frame = x ∧ m.upage < 2 ^ 39 ∧ k = m.upage / 4096) := by
  rw [place] at h
  cases hl : own x with
  | some lb =>
    obtain ⟨o, e, n⟩ := lb
    rw [hl] at h
    dsimp only at h
    split_ifs at h with hcond
    obtain ⟨rfl, he, hn⟩ := hcond
    cases h
    exact .inl ⟨e, rfl, rfl, he, hn⟩
  | none =>
    rw [hl] at h
    obtain ⟨m, hfind, heq⟩ := Option.map_eq_some_iff.1 h
    cases heq
    have hprop := List.find?_some hfind
    simp only [decide_eq_true_eq] at hprop
    exact .inr ⟨rfl, rfl, m, mem_of_find?_eq_some hfind, hprop.1, hprop.2, rfl⟩

theorem pow_depth (h : d < 2) : 512 ^ (2 - d) = 512 * 512 ^ (2 - (d + 1)) := by
  rw [show 2 - d = 2 - (d + 1) + 1 by omega, pow_succ, mul_comm]

theorem InTree.depth_le {m : Bytes} (h : InTree m r d f) : d ≤ 3 := by
  induction h with
  | root => exact le_rfl
  | child _ _ _ ih => omega

theorem InTree.eq_root {m : Bytes} (h : InTree m r 3 f) : f = r := by
  cases h with
  | root => rfl
  | child h' _ _ =>
    have := InTree.depth_le h'
    omega

section

variable (h : Built s₀ r own l t)
include h

/-- A leaf entry of one of the page map's tables below `2 ^ 39` is empty or maps a page of `l`. -/
theorem Built.leaf_entry (hf : own f = some ⟨some (kva r), 0, k⟩) (hk : k < 512 ^ 2)
    (hi : i < 512) :
    entry t.mem f i = 0 ∨ ∃ m ∈ l, m.upage / 4096 = 512 * k + i ∧
      entry t.mem f i = leafEntry (kva m.frame) m.rw := by
  obtain ⟨-, hpart⟩ := part_zero_eq_iff.2 (rfl : 4096 * (512 * k + i) = _)
  obtain ⟨hkey, hidx⟩ := (part_succ_eq_iff hi).2 hpart
  obtain ⟨-, hleaf⟩ := leafOf_through h.tables h.root (h.linked f 0 k hf) hf hkey
  have htr : translate t.mem 3 r (4096 * (512 * k + i)) = entry t.mem f i := by
    rw [translate_of_leafOf_some hleaf, hidx]
  have hdiv : 4096 * (512 * k + i) / 4096 = 512 * k + i := hpart
  rcases h.low (4096 * (512 * k + i)) (by omega) with h0 | ⟨m, hm, hpg, hval⟩
  · exact .inl (htr.symm.trans h0)
  · exact .inr ⟨m, hm, hpg.trans hdiv, htr.symm.trans hval⟩

/-- What an entry of a node names has the node's place with one digit more. -/
theorem Built.down (hframes : (l.map Mapping.frame).Nodup) (hf : place own r l f = some (d + 1, k))
    (hi : i < 512) (hg : child t.mem f i = some g) :
    place own r l g = some (d, 512 * k + i) := by
  rcases place_cases hf with ⟨e, he, hl, he2, hk⟩ | ⟨h0, -⟩
  · obtain rfl : d = e := by omega
    cases d with
    | zero =>
      have hk' : k < 512 ^ 2 := hk
      rcases h.leaf_entry hl hk' hi with h0 | ⟨m, hm, hpg, hval⟩
      · rw [child, h0] at hg
        cases hg
      · rw [child, hval, target_leafEntry] at hg
        cases hg
        rw [h.place_frame hframes hm (by omega), hpg]
    | succ d =>
      obtain ⟨o', hown, hco⟩ := h.tables.child_of_target hl hi hg
      have ho : o' = some (kva r) := by
        rcases hco.1 with ho | ⟨hd2, -⟩
        · exact ho
        · omega
      subst ho
      refine place_table hown (by omega) ?_
      have hpow := pow_depth (d := d) (by omega)
      omega
  · omega

/-- A node below the first table is named by the node one digit above it. -/
theorem Built.up (hg : place own r l g = some (d, k)) (hd : d < 3) :
    ∃ f, place own r l f = some (d + 1, k / 512) ∧ child t.mem f (k % 512) = some g := by
  rcases place_cases hg with ⟨e, rfl, hl, he, hk⟩ | ⟨rfl, -, m, hm, rfl, hlow, rfl⟩
  · -- a table
    cases h.linked g e k hl with
    | root => omega
    | @child _ f _ i hf hi hfg =>
      obtain ⟨o', n, hlf⟩ := hf.label h.tables h.root
      obtain ⟨o'', hlg, hco⟩ := h.tables.child_of_target hlf hi hfg
      rw [hl] at hlg
      obtain ⟨rfl, rfl⟩ := hlg
      have ho : o' = some (kva r) := by
        rcases hco.1 with ho | ⟨-, ho⟩
        · exact ho.symm
        · cases ho
      subst ho
      have hdiv : (512 * n + i) / 512 = n := by omega
      have hmod : (512 * n + i) % 512 = i := by omega
      rw [hdiv, hmod]
      refine ⟨f, place_table hlf (by omega) ?_, hfg⟩
      have hpow := pow_depth (d := e) (by omega)
      omega
  · -- a mapped frame
    obtain ⟨-, -, -, hu, htr⟩ := h.pages m hm
    have hval := leafEntry_kva m.frame m.rw
    cases hleaf : leafOf t.mem 3 r m.upage with
    | none =>
      rw [translate_of_leafOf_none hleaf, hval.1] at htr
      split at htr <;> omega
    | some f =>
      rw [translate_of_leafOf_some hleaf] at htr
      obtain ⟨o', hl, hv⟩ := h.tables.leafOf_label (by omega)
        (by rw [user_key hu]; exact h.root) hleaf
      have ho : o' = some (kva r) := by
        rcases hv with ho | ⟨-, -, hidx⟩
        · exact ho
        · exact absurd (indexAt_low hlow) hidx
      subst ho
      have hpage : m.upage / 4096 = part 0 m.upage := rfl
      have hdigits : part 0 m.upage = 512 * part 1 m.upage + indexAt 0 m.upage :=
        part_eq 0 m.upage
      have hlt := indexAt_lt 0 m.upage
      have hdiv : m.upage / 4096 / 512 = part 1 m.upage := by omega
      have hmod : m.upage / 4096 % 512 = indexAt 0 m.upage := by omega
      rw [hdiv, hmod]
      refine ⟨f, place_table hl (by omega) ?_, ?_⟩
      · omega
      · rw [child, htr]
        exact target_leafEntry _ _

/-- The first table is the one that entry 0 of the top level names. -/
theorem Built.top_iff (f : Frame) (k : Nat) :
    place own r l f = some (3, k) ↔ child t.mem r 0 = some f ∧ k = 0 := by
  constructor
  · intro hf
    rcases place_cases hf with ⟨e, he, hl, -, hk⟩ | ⟨h0, -⟩
    · obtain rfl : e = 2 := by omega
      cases h.linked f 2 k hl with
      | @child _ f' _ i hf' hi hff =>
        obtain rfl := InTree.eq_root hf'
        obtain ⟨o'', hlg, -⟩ := h.tables.child_of_target h.root hi hff
        rw [hl] at hlg
        simp only [Option.some.injEq, Label.mk.injEq, true_and] at hlg
        have hk0 : k = 0 := by
          omega
        have hi0 : i = 0 := by omega
        subst hi0
        exact ⟨hff, hk0⟩
    · omega
  · rintro ⟨hf, rfl⟩
    obtain ⟨o', hl, hco⟩ := h.tables.child_of_target h.root (by norm_num) hf
    have ho : o' = some (kva r) := by
      rcases hco.1 with ho | ⟨-, ho⟩
      · exact ho
      · exact absurd rfl (hco.2 rfl ho)
    subst ho
    exact place_table hl le_rfl (by norm_num)

theorem Built.located (hframes : (l.map Mapping.frame).Nodup) (hg : child t.mem r 0 = some g) :
    Located (child t.mem) 512 3 g (place own r l) where
  root_iff := by
    intro f k
    rw [h.top_iff, hg, Option.some.injEq, eq_comm]
  down := fun f d k hf i hi g' hg' => h.down hframes hf hi hg'
  up := by
    intro x d k hx
    have hd : d ≤ 3 := by
      rcases place_cases hx with ⟨e, rfl, -, he, -⟩ | ⟨rfl, -⟩
      · omega
      · omega
    exact ⟨hd, fun hne => h.up hx (by omega)⟩

end

/-- The pages that `pml4_destroy` frees, in order. -/
def freedPages (t : Machine) (r : Frame) : List Frame := below (child t.mem) 512 3 r 0 ++ [r]

section

variable (h : Built s₀ r own l t)
include h

/-- Everything with a place hangs below entry 0. -/
theorem Built.mem_below_iff (hframes : (l.map Mapping.frame).Nodup) (x : Frame) :
    x ∈ below (child t.mem) 512 3 r 0 ↔ ∃ p, place own r l x = some p := by
  cases hg : child t.mem r 0 with
  | some g =>
    rw [below, hg]
    exact (h.located hframes hg).mem_postorder_iff (by norm_num) x
  | none =>
    rw [below, hg]
    refine ⟨fun hx => (by cases hx), ?_⟩
    -- climbing from a place leads to the first table, which is not there
    have hclimb : ∀ n x d k, place own r l x = some (d, k) → 3 - d = n → False := by
      intro n
      induction n with
      | zero =>
        intro x d k hx hn
        rcases place_cases hx with ⟨e, rfl, -, he, -⟩ | ⟨rfl, -⟩
        · obtain rfl : e = 2 := by omega
          rw [((h.top_iff x k).1 hx).1] at hg
          cases hg
        · omega
      | succ n ih =>
        intro x d k hx hn
        obtain ⟨f, hf, -⟩ := h.up hx (by omega)
        exact ih f _ _ hf (by omega)
    rintro ⟨⟨d, k⟩, hx⟩
    exact (hclimb _ x d k hx rfl).elim

/-- Entries of nodes are present and name a frame, or are not present. -/
theorem Built.sound (hframes : (l.map Mapping.frame).Nodup) (d : Nat) :
    ∀ (f : Frame) (k : Nat), place own r l f = some (d, k) → Sound t.mem d f := by
  induction d with
  | zero => exact fun _ _ _ => trivial
  | succ d ih =>
    intro f k hf i hi
    refine ⟨?_, fun g hg => ih g _ (h.down hframes hf hi hg)⟩
    intro hnone
    rcases place_cases hf with ⟨e, he, hl, -, hk⟩ | ⟨h0, -⟩
    · obtain rfl : d = e := by omega
      have hzero : entry t.mem f i = 0 := by
        cases d with
        | zero =>
          rcases h.leaf_entry hl hk hi with h0 | ⟨m, -, -, hval⟩
          · exact h0
          · rw [child, hval, target_leafEntry] at hnone
            cases hnone
        | succ d =>
          rcases h.tables.child f _ d k hl i hi with h0 | ⟨g, -, hg, -, -⟩
          · exact h0
          · rw [child, hg] at hnone
            cases hnone
      rw [hzero]
    · omega

/-- What has a place is in use. -/
theorem Built.used_of_place {p : Nat × Nat} (hx : place own r l x = some p) :
    t.used x = true ∧ t.poolOf x ≠ none := by
  rcases place_cases hx with ⟨e, -, hl, -, -⟩ | ⟨-, -, m, hm, rfl, -, -⟩
  · obtain ⟨hu, hp⟩ := h.tables.used x _ hl
    exact ⟨hu, by rw [hp]; exact Option.some_ne_none _⟩
  · obtain ⟨hp, hu, -⟩ := h.pages m hm
    exact ⟨hu, by rw [hp]; exact Option.some_ne_none _⟩

/-- The top level is not below itself. -/
theorem Built.root_not_below (hframes : (l.map Mapping.frame).Nodup) :
    r ∉ below (child t.mem) 512 3 r 0 := by
  intro hr
  obtain ⟨⟨d, k⟩, hp⟩ := (h.mem_below_iff hframes r).1 hr
  rcases place_cases hp with ⟨e, -, hl, he, -⟩ | ⟨-, hnone, -⟩
  · rw [h.root] at hl
    cases hl
    omega
  · rw [h.root] at hnone
    cases hnone

/-- `pml4_destroy` returns and has freed the pages below entry 0 and the top level. -/
theorem Built.wp_pml4Destroy (hframes : (l.map Mapping.frame).Nodup) :
    wp (pml4Destroy (kva r)) t fun _ t' => Freed t (freedPages t r) t' := by
  have hroot := h.tables.used r _ h.root
  -- the top level is freed last, when it is still in use
  have hlast : ∀ t', Freed t (below (child t.mem) 512 3 r 0) t' →
      wp (pallocFreePage (kva r)) t' fun _ t'' => Freed t (freedPages t r) t'' := by
    intro t' hfreed
    refine wp_pallocFreePage ?_ ((hfreed.used r).2 ⟨hroot.1, h.root_not_below hframes⟩)
      (hfreed.append (freed_release t' r))
    rw [hfreed.pool, hroot.2]
    exact Option.some_ne_none _
  have hread : readLE t.mem 8 (kva r) = entry t.mem r 0 := rfl
  rw [pml4Destroy, if_neg (kva_ne_zero r)]
  simp only [wp_bind, wp_get, wp_check, wp_read64]
  refine ⟨h.base.symm, ?_⟩
  rw [hread]
  rcases h.tables.child r _ 2 0 h.root 0 (by norm_num) with h0 | ⟨g, o', hg, -, -⟩
  · have hnone : child t.mem r 0 = none := by rw [child, h0, target_zero]
    rw [h0, if_neg (not_not.2 ptov_zero_present)]
    apply hlast
    rw [below, hnone]
    exact freed_nil t
  · have hg' : child t.mem r 0 = some g := hg
    obtain ⟨hp, ha⟩ := ptov_target (entry_lt t.mem r 0) hg
    have hplace : place own r l g = some (3, 0) := (h.top_iff g 0).2 ⟨hg', rfl⟩
    rw [if_pos hp, ha, wp_bind, ← destroyAt_three]
    refine wp_mono (wp_destroyAt 3 g t (h.sound hframes 3 g 0 hplace)
      ((h.located hframes hg').nodup_postorder 3 g 0 hplace) ?_) ?_
    · intro x hx
      obtain ⟨p, hp⟩ := ((h.located hframes hg').mem_postorder_iff (by norm_num) x).1 hx
      exact h.used_of_place hp
    · rintro - t' hfreed
      apply hlast
      rw [below, hg']
      exact hfreed

end

end Places

/-! ## The theorem -/

/-- What tearing a page map down is meant to leave, `s₀` being the machine before `pml4_create` and
`t` the machine before `pml4_destroy`: the mapped frames are free, the kernel pool is as before
`pml4_create`, and no other page has been freed. So if the mapped frames are what was obtained from
the user pool meanwhile, the allocator is as before `pml4_create`. -/
structure TornDown (s₀ t : Machine) (l : List Mapping) (t' : Machine) : Prop where
  frames : ∀ m ∈ l, t'.used m.frame = false
  kernel : ∀ f, t.poolOf f = some .kernel → t'.used f = s₀.used f
  others : ∀ f, t.poolOf f ≠ some .kernel → (∀ m ∈ l, m.frame ≠ f) → t'.used f = t.used f
  restored : (∀ f, t.poolOf f ≠ some .kernel →
      (t.used f = true ↔ s₀.used f = true ∨ ∃ m ∈ l, m.frame = f)) →
    (∀ m ∈ l, s₀.used m.frame = false) → t'.used = s₀.used

section Theorem

variable {s₀ t t' : Machine} {r : Frame} {own : Frame → Option Label} {l : List Mapping}

/-- The allocator is restored when the mapped frames are those obtained since. -/
theorem used_restored (hframes : ∀ m ∈ l, t'.used m.frame = false)
    (hkernel : ∀ f, t.poolOf f = some .kernel → t'.used f = s₀.used f)
    (hothers : ∀ f, t.poolOf f ≠ some .kernel → (∀ m ∈ l, m.frame ≠ f) → t'.used f = t.used f)
    (hsince : ∀ f, t.poolOf f ≠ some .kernel →
      (t.used f = true ↔ s₀.used f = true ∨ ∃ m ∈ l, m.frame = f))
    (hfree : ∀ m ∈ l, s₀.used m.frame = false) : t'.used = s₀.used := by
  funext f
  by_cases hp : t.poolOf f = some .kernel
  · exact hkernel f hp
  · by_cases hm : ∃ m ∈ l, m.frame = f
    · obtain ⟨m, hm, rfl⟩ := hm
      rw [hframes m hm, hfree m hm]
    · have hno : ∀ m ∈ l, m.frame ≠ f := fun m hml he => hm ⟨m, hml, he⟩
      rw [hothers f hp hno, Bool.eq_iff_iff, hsince f hp]
      exact ⟨fun hor => hor.resolve_right hm, .inl⟩

/-- A frame mapped at `2 ^ 39` or above is not freed. -/
theorem Built.high_not_freed (h : Built s₀ r own l t) (hframes : (l.map Mapping.frame).Nodup)
    (hm : m ∈ l) (hhigh : ¬ m.upage < 2 ^ 39) : m.frame ∉ freedPages t r := by
  intro hmem
  have hnone := h.unlabelled hm
  rcases mem_append.1 hmem with hmem | hmem
  · obtain ⟨⟨d, k⟩, hp⟩ := (h.mem_below_iff hframes m.frame).1 hmem
    rcases place_cases hp with ⟨e, -, hl, -, -⟩ | ⟨-, -, m', hm', heq, hlow, -⟩
    · rw [hnone] at hl
      cases hl
    · rw [inj_on_of_nodup_map hframes hm' hm heq] at hlow
      exact hhigh hlow
  · rw [mem_singleton.1 hmem, h.root] at hnone
    cases hnone

/-- With every page below `2 ^ 39`, what is freed is what the calls took. -/
theorem Built.tornDown (h : Built s₀ r own l t) (hframes : (l.map Mapping.frame).Nodup)
    (hlow : ∀ m ∈ l, m.upage < 2 ^ 39) (hfreed : Freed t (freedPages t r) t') :
    TornDown s₀ t l t' := by
  have hmem : ∀ x, (∃ p, place own r l x = some p) → x ∈ freedPages t r :=
    fun x hx => mem_append_left _ ((h.mem_below_iff hframes x).2 hx)
  have hcases : ∀ x ∈ freedPages t r, (∃ d k, own x = some ⟨some (kva r), d, k⟩) ∨
      ∃ m ∈ l, m.frame = x := by
    intro x hx
    rcases mem_append.1 hx with hx | hx
    · obtain ⟨⟨d, k⟩, hp⟩ := (h.mem_below_iff hframes x).1 hx
      rcases place_cases hp with ⟨e, -, hl, -, -⟩ | ⟨-, -, m, hm, heq, -, -⟩
      · exact .inl ⟨e, k, hl⟩
      · exact .inr ⟨m, hm, heq⟩
    · obtain rfl := mem_singleton.1 hx
      exact .inl ⟨3, 0, h.root⟩
  have hmapped : ∀ m ∈ l, t'.used m.frame = false := by
    intro m hm
    rw [Bool.eq_false_iff]
    intro hu
    exact ((hfreed.used m.frame).1 hu).2
      (hmem _ ⟨_, h.place_frame hframes hm (hlow m hm)⟩)
  have hkernel : ∀ f, t.poolOf f = some .kernel → t'.used f = s₀.used f := by
    intro f hp
    rw [Bool.eq_iff_iff, hfreed.used f]
    constructor
    · rintro ⟨hu, hnot⟩
      rcases h.used f hp hu with hold | ⟨⟨o, d, k⟩, hl⟩
      · exact hold
      · rcases h.owners f _ hl with ho | ho
        · exact (h.lowOnly hlow).1 f _ hl ho
        · -- a table of this page map has been freed
          obtain rfl : o = some (kva r) := ho
          refine absurd ?_ hnot
          by_cases hd : d ≤ 2
          · exact hmem f ⟨_, place_table hl hd ((h.lowOnly hlow).2 f d k hl hd)⟩
          · have hd3 : d = 3 := by
              have := InTree.depth_le (h.linked f d k hl)
              omega
            subst hd3
            rw [InTree.eq_root (h.linked f 3 k hl)]
            exact mem_append_right _ (mem_singleton.2 rfl)
    · intro hold
      refine ⟨h.mono f hold, fun hx => ?_⟩
      rcases hcases f hx with ⟨d, k, hl⟩ | ⟨m, hm, rfl⟩
      · rw [h.fresh f d k hl] at hold
        cases hold
      · rw [(h.pages m hm).pool] at hp
        cases hp
  have hothers : ∀ f, t.poolOf f ≠ some .kernel → (∀ m ∈ l, m.frame ≠ f) →
      t'.used f = t.used f := by
    intro f hp hno
    rw [Bool.eq_iff_iff, hfreed.used f]
    refine ⟨And.left, fun hu => ⟨hu, fun hx => ?_⟩⟩
    rcases hcases f hx with ⟨d, k, hl⟩ | ⟨m, hm, heq⟩
    · exact hp (h.tables.used f _ hl).2
    · exact hno m hm heq
  exact ⟨hmapped, hkernel, hothers, used_restored hmapped hkernel hothers⟩

end Theorem

/-- For a page map made by `pml4_create` and successful calls of `pml4_set_page`, at different pages
and with different frames of the user pool, `pml4_destroy` returns and frees the frames and what
the calls took, each page once and no other, exactly when every page lies below `2 ^ 39`. -/
theorem destroy_frees_all_iff {s₀ s t : Machine} {p : Nat} {ops : List BuildOp}
    (hkernel : KernelMap s₀) (hcreate : pml4Create s₀ = .ok (some p, s))
    (hrun : run (step p) s ops = some t)
    (hpages : ((mappings ops).map Mapping.upage).Nodup)
    (hframes : ((mappings ops).map Mapping.frame).Nodup) :
    wp (pml4Destroy p) t (fun _ t' => TornDown s₀ t (mappings ops) t') ↔
      ∀ m ∈ mappings ops, m.upage < 2 ^ 39 := by
  have hnew : wp pml4Create s₀ fun q s => ∀ p, q = some p →
      ∃ r own, p = kva r ∧ Built s₀ r own [] s := by
    apply wp_pml4Create
    · rintro g hpool hfree p ⟨⟩
      obtain ⟨own, h⟩ := built_create hkernel hpool hfree
      exact ⟨g, own, rfl, h⟩
    · rintro s' - p ⟨⟩
  obtain ⟨r, own, rfl, h⟩ := wp_of_eq_ok hnew hcreate p rfl
  obtain ⟨own', hbuilt⟩ := run_built h hpages hrun
  obtain ⟨a, t', hdestroy, hfreed⟩ := hbuilt.wp_pml4Destroy hframes
  constructor
  · intro htorn m hm
    by_contra hhigh
    have hfree := (wp_of_eq_ok htorn hdestroy).frames m hm
    have hused := (hfreed.used m.frame).2
      ⟨(hbuilt.pages m hm).used, hbuilt.high_not_freed hframes hm hhigh⟩
    rw [hfree] at hused
    cases hused
  · intro hlow
    exact ⟨_, t', hdestroy, hbuilt.tornDown hframes hlow hfreed⟩

/-- `paging_init` leaves the base page map that `pml4_create` expects. -/
theorem kernelMap_of_boot {memEnd textStart textEnd : Nat} (hmem : kernBase + memEnd ≤ 2 ^ 48)
    {w : Isolation.World} (hw : Isolation.boot memEnd textStart textEnd s = some w) :
    KernelMap w.machine := by
  unfold Isolation.boot at hw
  split at hw
  · rename_i u s' hs
    cases hw
    obtain ⟨own, rb, hb⟩ := wlp_pagingInit hmem textStart textEnd s u s' hs
    exact ⟨own, rb, hb.tables, hb.root, hb.base, hb.owner⟩
  · cases hw

/-- A machine with twenty pages in the kernel pool and four in the user pool. The searches find the
pages for `paging_init` and `pml4_create`, then a frame, then three tables. -/
def twoPools : Machine where
  mem := fun _ => 0
  poolOf := fun f => if f.val < 20 then some .kernel else if f.val < 24 then some .user else none
  used := fun _ => false
  answers := [0, 1, 2, 3, 4, 20, 5, 6, 7].map fun n =>
    if h : n < frameCnt then some ⟨n, h⟩ else none
  basePml4 := 0

/-- The machine after `paging_init` for one page of memory. -/
def started : Isolation.World := (Isolation.boot 0x1000 0 0 twoPools).get (by decide +kernel)

/-- The machine after `pml4_create`, whose result is the page at `0x8004004000`. -/
def created : Machine :=
  ((pml4Create started.machine).toOption.get (by decide +kernel)).2

/-- A frame is obtained and mapped at `upage`. -/
def onePage (upage : Nat) : List BuildOp :=
  [.getFrame true, .mapPage ⟨upage, ⟨20, by decide⟩, true⟩]

theorem created_eq : pml4Create started.machine = .ok (some 0x8004004000, created) := by
  have hfst : ((pml4Create started.machine).toOption.get (by decide +kernel)).1 =
      some 0x8004004000 := by
    decide +kernel
  exact (eq_ok_of_toOption (Option.some_get _).symm).trans
    (congrArg Except.ok (Prod.ext hfst rfl))

/-- The page map has one page, at `0x400000`. -/
theorem destroy_frees_all_onePage :
    ∃ t, run (step 0x8004004000) created (onePage 0x400000) = some t ∧
      wp (pml4Destroy 0x8004004000) t (fun _ t' =>
        TornDown started.machine t (mappings (onePage 0x400000)) t') := by
  obtain ⟨t, ht⟩ := Option.isSome_iff_exists.1 (show (run (step 0x8004004000) created
    (onePage 0x400000)).isSome = true by decide +kernel)
  have hkernel : KernelMap started.machine :=
    kernelMap_of_boot (by decide) (Option.some_get _).symm
  refine ⟨t, ht, (destroy_frees_all_iff hkernel created_eq ht ?_ ?_).2 ?_⟩
  · exact nodup_singleton _
  · exact nodup_singleton _
  · intro m hm
    rw [mem_singleton.1 hm]
    norm_num

/-- The page map has one page, at `2 ^ 39`, an address that `pml4_set_page` admits. The frame and
the page directory made for it are still in use after `pml4_destroy`. -/
theorem destroy_leaks_high_page :
    isUserVaddr 0x8000000000 ∧
    ∃ t, run (step 0x8004004000) created (onePage 0x8000000000) = some t ∧
      ∃ t', pml4Destroy 0x8004004000 t = .ok ((), t') ∧
        started.machine.used ⟨20, by decide⟩ = false ∧ t'.used ⟨20, by decide⟩ = true ∧
        started.machine.used ⟨5, by decide⟩ = false ∧ t'.used ⟨5, by decide⟩ = true := by
  have hleak : ((run (step 0x8004004000) created (onePage 0x8000000000)).any fun t =>
      (pml4Destroy 0x8004004000 t).toOption.any fun r =>
        r.2.used ⟨20, by decide⟩ && r.2.used ⟨5, by decide⟩) = true := by
    decide +kernel
  obtain ⟨t, ht, hdestroy⟩ := (Option.any_eq_true _ _).1 hleak
  obtain ⟨⟨⟨⟩, t'⟩, hok, hused⟩ := (Option.any_eq_true _ _).1 hdestroy
  rw [Bool.and_eq_true] at hused
  exact ⟨by decide, t, ht, t', eq_ok_of_toOption hok, by decide +kernel, hused.1,
    by decide +kernel, hused.2⟩

end Pintos.Threads.Teardown
