import Pintos.Threads.PageTables

/-!
# Walking and extending page tables

What `pgdir_walk`, `pdpe_walk` and `pml4e_walk` do to labelled tables. Without `create` a walk reads
the leaf that `leafOf` describes. With `create` it either fails and leaves no trace, or returns the
leaf entry's address in tables that have grown by what was missing on the way; the pages that it
takes for them are counted (`Takes`). Both statements are proved for the last level and lifted
through `walkLevel`.
-/

set_option autoImplicit false

namespace Pintos.Threads.PageWalk

open Function Lib.StateExcept Lib.ByteMemory List
open Vaddr Palloc Mmu PageTables

/-! ## One new table -/

/-- The machine after frame `g` has been zeroed and entry `i` of `f` names it. -/
def newTable (s : Machine) (f g : Frame) (i : Nat) : Machine :=
  { s with
    used := update s.used g true
    answers := s.answers.tail
    mem := writeLE (fill s.mem (kva g) pgSize 0) 8 (kva f + 8 * i)
      (4096 * g.val ||| pteU ||| pteW ||| pteP) }

section NewTable

variable {own : Frame → Option Label} {s : Machine} {f g : Frame} {o : Option Nat} {d k i : Nat}
  {h : Frame} {j : Nat}

theorem newTable_used_other (hhg : h ≠ g) :
    (newTable s f g i).used h = s.used h :=
  update_of_ne hhg _ _

theorem newTable_entry_new : target (entry (newTable s f g i).mem f i) = some g := by
  obtain ⟨ht, hv⟩ := target_new g
  rw [newTable, entry_write_same, Nat.mod_eq_of_lt hv]
  exact ht

theorem newTable_entry_zero (hfg : g ≠ f) (hi : i < 512) (hj : j < 512) :
    entry (newTable s f g i).mem g j = 0 := by
  rw [newTable, entry_write_other hi hj (.inl hfg)]
  exact entry_fill_zero hj

theorem newTable_entry_other (hhg : h ≠ g) (hi : i < 512) (hj : j < 512) (hne : h ≠ f ∨ j ≠ i) :
    entry (newTable s f g i).mem h j = entry s.mem h j := by
  rw [newTable, entry_write_other hi hj hne]
  exact (samePage_page hhg).entry hj

theorem newTable_samePage (hhg : h ≠ g) (hhf : h ≠ f) (hi : i < 512) :
    SamePage s.mem (newTable s f g i).mem h :=
  (samePage_page hhg).trans (samePage_write hi hhf)

section

variable (ht : Tables own s) (hf : own f = some ⟨o, d + 1, k⟩)
include ht hf

theorem newTable_tables (hi : i < 512) (hpool : s.poolOf g = some .kernel)
    (hfree : s.used g = false) (hco : ChildOwner o d i o) :
    Tables (update own g (some ⟨o, d, 512 * k + i⟩)) (newTable s f g i) := by
  have hgf : g ≠ f := (ht.ne_free hf hfree).symm
  refine ⟨?_, ?_⟩
  · intro h l hl
    by_cases hhg : h = g
    · subst hhg
      exact ⟨update_self .., hpool⟩
    · rw [update_of_ne hhg] at hl
      obtain ⟨hu, hp⟩ := ht.used h l hl
      exact ⟨(newTable_used_other hhg).trans hu, hp⟩
  · intro h o' d' k' hl j hj
    by_cases hhg : h = g
    · subst hhg
      exact .inl (newTable_entry_zero hgf hi hj)
    · rw [update_of_ne hhg] at hl
      by_cases hfi : h = f ∧ j = i
      · obtain ⟨rfl, rfl⟩ := hfi
        rw [hf] at hl
        cases hl
        exact .inr ⟨g, o, newTable_entry_new, update_self .., hco⟩
      · have hne : h ≠ f ∨ j ≠ i := by
          by_cases hhf : h = f
          · exact .inr fun hji => hfi ⟨hhf, hji⟩
          · exact .inl hhf
        rw [newTable_entry_other hhg hi hj hne]
        rcases ht.child h o' d' k' hl j hj with h0 | ⟨g', o'', hg', hown, hco'⟩
        · exact .inl h0
        · have hg'g : g' ≠ g := ht.ne_free hown hfree
          exact .inr ⟨g', o'', hg', by rw [update_of_ne hg'g]; exact hown, hco'⟩

/-- A table reached through the new entry translates nothing, as the missing entry did. -/
theorem newTable_translate (hi : i < 512) (h0 : entry s.mem f i = 0) (hfree : s.used g = false)
    (va : Nat) :
    ∀ (e : Nat) (h : Frame) (o' : Option Nat) (k' : Nat), own h = some ⟨o', e, k'⟩ →
      translate (newTable s f g i).mem e h va = translate s.mem e h va := by
  have hused : ∀ h l, own h = some l → h ≠ g := fun h l hl => ht.ne_free hl hfree
  have hgf : g ≠ f := (hused f _ hf).symm
  intro e
  induction e with
  | zero =>
    intro h o' k' hl
    have hne : h ≠ f := by
      rintro rfl
      rw [hf] at hl
      cases hl
    exact newTable_entry_other (hused h _ hl) hi (indexAt_lt _ _) (.inl hne)
  | succ e ih =>
    intro h o' k' hl
    by_cases hfi : h = f ∧ indexAt (e + 1) va = i
    · obtain ⟨rfl, hidx⟩ := hfi
      rw [PageTables.translate, PageTables.translate, hidx, newTable_entry_new, h0, target_zero]
      exact translate_zero_table (fun j hj => newTable_entry_zero hgf hi hj) va
    · have hne : h ≠ f ∨ indexAt (e + 1) va ≠ i := by
        by_cases hhf : h = f
        · exact .inr fun hji => hfi ⟨hhf, hji⟩
        · exact .inl hhf
      rw [PageTables.translate, PageTables.translate,
        newTable_entry_other (hused h _ hl) hi (indexAt_lt _ _) hne]
      rcases ht.child h o' e k' hl _ (indexAt_lt (e + 1) va) with hz | ⟨g', o'', hg', hown, -⟩
      · rw [hz, target_zero]
      · rw [hg']
        exact ih g' o'' _ hown

theorem newTable_grows (hd : d ≤ 2) (hi : i < 512) (h0 : entry s.mem f i = 0)
    (hfree : s.used g = false) :
    Grows (fun o' => o' = o) own (update own g (some ⟨o, d, 512 * k + i⟩)) s
      (newTable s f g i) where
  keeps := by
    intro h l hl
    have hhg : h ≠ g := ht.ne_free hl hfree
    rw [update_of_ne hhg]
    exact hl
  fresh := by
    intro h l hl
    by_cases hhg : h = g
    · subst hhg
      rw [update_self] at hl
      cases hl
      exact .inr ⟨hfree, rfl, hd⟩
    · rw [update_of_ne hhg] at hl
      exact .inl hl
  used := by
    intro h hh
    by_cases hhg : h = g
    · subst hhg
      exact update_self ..
    · exact (newTable_used_other hhg).trans hh
  usedNew := by
    intro h hh
    by_cases hhg : h = g
    · subst hhg
      exact .inr ⟨_, update_self ..⟩
    · exact .inl ((newTable_used_other hhg).symm.trans hh)
  pool := rfl
  base := rfl
  page := by
    intro h hh hno
    have hhg : h ≠ g := ne_of_used hh hfree
    have hhf : h ≠ f := by
      rintro rfl
      exact hno _ hf rfl
    exact newTable_samePage hhg hhf hi
  entries := by
    intro h l hl j hj hne
    have hhg : h ≠ g := ht.ne_free hl hfree
    apply newTable_entry_other hhg hi hj
    by_cases hhf : h = f
    · subst hhf
      exact .inr fun hji => hne (hji ▸ h0)
    · exact .inl hhf
  trans := fun h l hl va => newTable_translate ht hf hi h0 hfree va l.depth h l.owner l.key hl

end

/-- Giving the new table back and clearing its entry undoes it. -/
theorem newTable_undo (hf : s.used f = true) (hi : i < 512) (h0 : entry s.mem f i = 0)
    (hfree : s.used g = false) {s' : Machine} (hnt : NoTrace (newTable s f g i) s') :
    NoTrace s { s'.release g with mem := writeLE (s'.release g).mem 8 (kva f + 8 * i) 0 } := by
  have hgf : g ≠ f := (ne_of_used hf hfree).symm
  refine ⟨?_, hnt.pool, hnt.base, ?_⟩
  · rw [Machine.release, hnt.used, newTable]
    rw [update_idem, ← hfree, update_eq_self]
  · intro h hh
    have hhg : h ≠ g := ne_of_used hh hfree
    have hused : (newTable s f g i).used h = true := (newTable_used_other hhg).trans hh
    have hpage := hnt.page h hused
    by_cases hhf : h = f
    · subst hhf
      intro x h1 h2
      -- inside the entry both memories hold zero bytes, elsewhere nothing was stored
      by_cases hx : kva h + 8 * i ≤ x ∧ x < kva h + 8 * i + 8
      · have hz : s.mem x = 0 := readLE_eq_zero h0 hx.1 hx.2
        rw [hz]
        show patch _ _ _ _ x = 0
        rw [patch_inside hx.1 hx.2]
        simp [byteLE]
      · show patch _ _ _ _ x = s.mem x
        rw [patch_outside (by omega)]
        show fill _ _ _ _ x = s.mem x
        have h3 : fill s'.mem (kva g) pgSize 0xcc x = s'.mem x :=
          samePage_page (m := s'.mem) hgf.symm x h1 h2
        rw [h3, hpage x h1 h2]
        show patch _ _ _ _ x = s.mem x
        rw [patch_outside (by omega)]
        exact samePage_page hgf.symm x h1 h2
    · have hrel : SamePage s'.mem (s'.release g).mem h :=
        samePage_page (c := fun _ => 0xcc) hhg
      have hclear : SamePage (s'.release g).mem
          (writeLE (s'.release g).mem 8 (kva f + 8 * i) 0) h :=
        samePage_write hi hhf
      exact (newTable_samePage hhg hhf hi).trans (hpage.trans (hrel.trans hclear))

end NewTable

/-! ## Walks that only read -/

/-- Without `create`, the walk `w` at depth `d` returns the address of the leaf entry, if there is
one, and changes nothing. -/
def ReadsLeaf (d : Nat) (w : Nat → Nat → Bool → KernelM (Option Nat)) : Prop :=
  ∀ (own : Frame → Option Label) (s : Machine) (f : Frame) (o : Option Nat) (va : Nat),
    Tables own s → own f = some ⟨o, d, part (d + 1) va⟩ → ∀ Q : Option Nat → Machine → Prop,
      wp (w (kva f) va false) s Q ↔
        Q ((leafOf s.mem d f va).map fun g => kva g + 8 * indexAt 0 va) s

theorem target_ne_zero {e : Nat} {g : Frame} (h : target e = some g) : e ≠ 0 := by
  rintro rfl
  cases h

theorem kva_ne_zero (f : Frame) : kva f ≠ 0 := by
  simp only [kva, kernBase]
  omega

theorem ptov_physical_add (f : Frame) {x : Nat} (hx : x < 4096) :
    ptov (4096 * f.val + x) = kva f + x := by
  obtain ⟨-, -, hlt⟩ := kva_facts f
  simp only [kva] at hlt
  rw [ptov, kva, Nat.mod_eq_of_lt (by omega)]
  omega

theorem pgdirWalk_readsLeaf : ReadsLeaf 1 pgdirWalk := by
  intro own s f o va ht hf Q
  have hptx := indexAt_lt 0 va
  rw [indexAt_zero] at hptx ⊢
  rw [pgdirWalk, leafOf, indexAt_one]
  simp only [kva_ne_zero, if_false, wp_bind, wp_read64]
  change wp (if entry s.mem f (pdx va) &&& pteP = 0 then _ else _) s Q ↔ _
  rcases ht.child f o 0 _ hf (pdx va) (by rw [← indexAt_one]; exact indexAt_lt 1 va) with
    h0 | ⟨g, o', hg, -, -⟩
  · simp [h0]
  · obtain ⟨hp, ha, -⟩ := target_some (entry_lt s.mem f (pdx va)) hg
    rw [hg]
    change wp (if entry s.mem f (pdx va) &&& pteP = 0 then _ else
      pure (some (ptov (pteAddr (entry s.mem f (pdx va)) + 8 * ptx va)))) s Q ↔ _
    rw [if_neg hp, wp_pure, ha, ptov_physical_add g (by omega)]
    rfl

variable {d : Nat} {index : Nat → Nat} {next : Nat → Nat → Bool → KernelM (Option Nat)}

theorem walkLevel_readsLeaf (hindex : ∀ va, index va = indexAt (d + 1) va)
    (hnext : ReadsLeaf d next) : ReadsLeaf (d + 1) (walkLevel index next) := by
  intro own s f o va ht hf Q
  rw [walkLevel, leafOf, hindex]
  simp only [kva_ne_zero, if_false, wp_bind, wp_read64]
  change wp (if entry s.mem f (indexAt (d + 1) va) &&& pteP = 0 then _ else
    next (ptov (pteAddr (entry s.mem f (indexAt (d + 1) va)))) va false) s Q ↔ _
  rcases ht.child f o d _ hf _ (indexAt_lt (d + 1) va) with h0 | ⟨g, o', hg, hown, -⟩
  · simp [h0]
  · obtain ⟨hp, -, hptov⟩ := target_some (entry_lt s.mem f (indexAt (d + 1) va)) hg
    rw [← part_eq] at hown
    rw [if_neg hp, hptov, hg]
    exact hnext own s g o' va ht hown Q

theorem pdpeWalk_readsLeaf : ReadsLeaf 2 pdpeWalk :=
  walkLevel_readsLeaf (fun va => (indexAt_two va).symm) pgdirWalk_readsLeaf

theorem pml4eWalk_readsLeaf : ReadsLeaf 3 pml4eWalk :=
  walkLevel_readsLeaf (fun va => (indexAt_three va).symm) pdpeWalk_readsLeaf

/-- The walks look at the 48 low bits of the address only. -/
theorem pml4eWalk_mod (table va : Nat) (create : Bool) :
    pml4eWalk table va create = pml4eWalk table (va % 2 ^ 48) create := by
  have hpt : ptx (va % 2 ^ 48) = ptx va := by
    rw [ptx_eq, ptx_eq]
    omega
  have hpd : pdx (va % 2 ^ 48) = pdx va := by
    rw [pdx_eq, pdx_eq]
    omega
  have hpdpe : pdpeIndex (va % 2 ^ 48) = pdpeIndex va := by
    rw [pdpeIndex_eq, pdpeIndex_eq]
    omega
  have hpml4 : pml4Index (va % 2 ^ 48) = pml4Index va := by
    rw [pml4Index_eq, pml4Index_eq]
    omega
  have hpgdir : ∀ pdp, pgdirWalk pdp (va % 2 ^ 48) create = pgdirWalk pdp va create := by
    intro pdp
    simp only [pgdirWalk, hpt, hpd]
  have hwalk : ∀ pdpe, pdpeWalk pdpe (va % 2 ^ 48) create = pdpeWalk pdpe va create := by
    intro pdpe
    simp only [pdpeWalk, walkLevel, hpdpe, hpgdir]
  simp only [pml4eWalk, walkLevel, hpml4, hwalk]

/-! ## Walks that create tables -/

/-- How a walk with `create` from the table `f` ends: without a trace, or at a leaf of tables that
have grown. -/
def Walked (own : Frame → Option Label) (s : Machine) (f : Frame) (o : Option Nat) (d va : Nat) :
    Option Nat → Machine → Prop
  | none, s' => NoTrace s s'
  | some pte, s' => ∃ own' g o', pte = kva g + 8 * indexAt 0 va ∧ Tables own' s' ∧
      Grows (Visits o d va) own own' s s' ∧ own' g = some ⟨o', 0, part 1 va⟩ ∧
      Visits o d va o' ∧ leafOf s'.mem d f va = some g

/-! ## The pages that a walk takes -/

/-- The tables below `f` on the way to `va`, from the top down, as far as they are present. -/
def path (m : Bytes) : Nat → Frame → Nat → List Frame
  | 0, _, _ => []
  | d + 1, f, va =>
    match target (entry m f (indexAt (d + 1) va)) with
    | none => []
    | some g => g :: path m d g va

section Pages

variable {m : Bytes} {f g : Frame} {s : Machine} {d va i : Nat}

theorem path_of_target (h : target (entry m f (indexAt (d + 1) va)) = some g) :
    path m (d + 1) f va = g :: path m d g va := by
  rw [path, h]

theorem path_of_zero (h : entry m f (indexAt (d + 1) va) = 0) : path m (d + 1) f va = [] := by
  rw [path, h, target_zero]

theorem path_zero_table (h : ∀ i < 512, entry m f i = 0) (va : Nat) : path m d f va = [] := by
  cases d with
  | zero => rfl
  | succ d => exact path_of_zero (h _ (indexAt_lt (d + 1) va))

/-- The next searches of the allocator find the pages `got`, which are free, one after another. -/
structure Obtained (s : Machine) (got : List Frame) : Prop where
  nodup : got.Nodup
  answers : s.answers.take got.length = got.map some
  free : ∀ g ∈ got, s.used g = false ∧ s.poolOf g = some .kernel

theorem obtained_nil (s : Machine) : Obtained s [] :=
  ⟨nodup_nil, rfl, fun _ h => (by cases h)⟩

/-- One page more, for a table that is linked before the others are obtained. -/
theorem Obtained.cons {got : List Frame} (h : Obtained (newTable s f g i) got)
    (hans : s.answers = some g :: s.answers.tail) (hpool : s.poolOf g = some .kernel)
    (hfree : s.used g = false) : Obtained s (g :: got) := by
  have hne : ∀ h' ∈ got, h' ≠ g := by
    rintro h' hh' rfl
    have hu := (h.free h' hh').1
    rw [show (newTable s f h' i).used h' = true from update_self ..] at hu
    cases hu
  refine ⟨nodup_cons.2 ⟨fun hg => hne g hg rfl, h.nodup⟩, ?_, ?_⟩
  · have htail : s.answers.tail.take got.length = got.map some := h.answers
    rw [hans, length_cons, take_succ_cons, htail, map_cons]
  · intro h' hh'
    rcases mem_cons.1 hh' with rfl | hh'
    · exact ⟨hfree, hpool⟩
    · obtain ⟨hu, hp⟩ := h.free h' hh'
      rw [newTable_used_other (hne h' hh')] at hu
      exact ⟨hu, hp⟩

/-- The pages that a walk with `create` obtains. When it fails, one more search has found nothing;
when it succeeds, the pages are the new end of the way to `va`. -/
def Takes (s : Machine) (f : Frame) (d va : Nat) : Option Nat → Machine → Prop
  | none, s' => ∃ got, Obtained s got ∧ s'.answers = (s.answers.drop got.length).tail
  | some _, s' => ∃ got, Obtained s got ∧ s'.answers = s.answers.drop got.length ∧
      (∀ g, s'.used g = true ↔ s.used g = true ∨ g ∈ got) ∧
      path s'.mem d f va = path s.mem d f va ++ got

/-- The pages in use after one new table. -/
theorem newTable_used_iff {h : Frame} :
    (newTable s f g i).used h = true ↔ s.used h = true ∨ h = g := by
  by_cases hhg : h = g
  · subst hhg
    exact ⟨fun _ => Or.inr rfl, fun _ => update_self ..⟩
  · rw [newTable_used_other hhg]
    exact ⟨Or.inl, fun hor => hor.resolve_right hhg⟩

end Pages

/-- With `create`, the walk `w` from a table at depth `d` ends as `Walked` and `Takes` say. -/
def CreatesLeaf (d : Nat) (w : Nat → Nat → Bool → KernelM (Option Nat)) : Prop :=
  ∀ (own : Frame → Option Label) (s : Machine) (f : Frame) (o : Option Nat) (va : Nat),
    Tables own s → own f = some ⟨o, d, part (d + 1) va⟩ → (d = 3 → o = none → indexAt 3 va ≠ 0) →
      wp (w (kva f) va true) s fun r s' => Walked own s f o d va r s' ∧ Takes s f d va r s'

theorem noTrace_answers (s : Machine) (a : List (Option Frame)) :
    NoTrace s { s with answers := a } :=
  ⟨rfl, rfl, rfl, fun f _ => SamePage.refl s.mem f⟩

theorem take_write_eq_newTable (s : Machine) (f g : Frame) (i : Nat) :
    { s.take { zero := true } g with
      mem := writeLE (s.take { zero := true } g).mem 8 (kva f + 8 * i)
        (4096 * g.val ||| pteU ||| pteW ||| pteP) } = newTable s f g i := rfl

theorem pgdirWalk_createsLeaf : CreatesLeaf 1 pgdirWalk := by
  intro own s f o va ht hf _
  have hptx := indexAt_lt 0 va
  have hpdx := indexAt_lt 1 va
  rw [pgdirWalk, ← indexAt_one, ← indexAt_zero]
  simp only [kva_ne_zero, if_false, wp_bind, wp_read64]
  change wp (if entry s.mem f (indexAt 1 va) &&& pteP = 0 then _ else
    pure (some (ptov (pteAddr (entry s.mem f (indexAt 1 va)) + 8 * indexAt 0 va)))) s _
  rcases ht.child f o 0 _ hf _ hpdx with h0 | ⟨g, o', hg, hown, hco⟩
  · simp only [h0, Nat.zero_and, if_true, wp_bind]
    apply wp_pallocGetPage_answer rfl
    · intro g hans hpool hfree
      simp only [wp_bind, wp_vtop_kva, wp_write64, wp_read64, wp_pure, take_write_eq_newTable]
      refine ⟨?_, [g], (obtained_nil (newTable s f g 0)).cons hans hpool hfree,
        drop_one.symm, ?_, ?_⟩
      · change Walked own s f o 1 va
          (some (ptov (pteAddr (entry (newTable s f g (indexAt 1 va)).mem f (indexAt 1 va)) +
            8 * indexAt 0 va))) _
        obtain ⟨-, ha, -⟩ := target_some (entry_lt _ _ _) newTable_entry_new
        rw [ha, ptov_physical_add g (by omega)]
        refine ⟨_, g, o, rfl,
          newTable_tables ht hf hpdx hpool hfree ⟨.inl rfl, fun h => absurd h (by decide)⟩,
          (newTable_grows ht hf (by omega) hpdx h0 hfree).mono fun o' h => .inl h, ?_,
          .inl rfl, ?_⟩
        · rw [update_self, ← part_eq]
        · rw [leafOf, newTable_entry_new]
          rfl
      · intro h
        rw [newTable_used_iff, mem_singleton]
      · rw [path_of_target newTable_entry_new, path_of_zero h0]
        rfl
    · simp only [wp_pure]
      exact ⟨noTrace_answers s _, [], obtained_nil s, rfl⟩
  · obtain ⟨hp, ha, -⟩ := target_some (entry_lt s.mem f (indexAt 1 va)) hg
    rw [if_neg hp, wp_pure, ha, ptov_physical_add g (by omega)]
    have ho : o' = o := by
      rcases hco.1 with h | ⟨h, -⟩
      · exact h
      · omega
    subst ho
    rw [← part_eq] at hown
    refine ⟨⟨own, g, o', rfl, ht, Grows.refl _ own s, hown, .inl rfl, ?_⟩, [], obtained_nil s, rfl,
      by simp, by simp⟩
    rw [leafOf, hg]
    rfl

section Below

variable {own : Frame → Option Label} {s s' : Machine} {f g : Frame} {o o' : Option Nat} {va : Nat}

/-- A walk that goes on from a table that was there. -/
theorem walked_of_linked (hd : d ≤ 2) (hf : own f = some ⟨o, d + 1, part (d + 2) va⟩)
    (hg : target (entry s.mem f (indexAt (d + 1) va)) = some g)
    (hco : ChildOwner o d (indexAt (d + 1) va) o') {r : Option Nat}
    (hw : Walked own s g o' d va r s') (htakes : Takes s g d va r s') :
    Walked own s f o (d + 1) va r s' ∧ Takes s f (d + 1) va r s' := by
  cases r with
  | none => exact ⟨hw, htakes⟩
  | some pte =>
    obtain ⟨own', g', o'', hpte, ht', hg', hown', hv, hleaf⟩ := hw
    obtain ⟨got, hgot, hans, hused, hpath⟩ := htakes
    have hvisits : ∀ o'', Visits o' d va o'' → Visits o (d + 1) va o'' := by
      rintro o'' (rfl | ⟨h3, -, -⟩)
      · rcases hco with ⟨rfl | ⟨rfl, rfl⟩, h2⟩
        · exact .inl rfl
        · exact .inr ⟨rfl, rfl, h2 rfl rfl⟩
      · omega
    have hlink : target (entry s'.mem f (indexAt (d + 1) va)) = some g := by
      rw [hg'.entries f _ hf _ (indexAt_lt _ _) (target_ne_zero hg)]
      exact hg
    refine ⟨⟨own', g', o'', hpte, ht', hg'.mono hvisits, hown', hvisits o'' hv, ?_⟩,
      got, hgot, hans, hused, ?_⟩
    · rw [leafOf, hlink]
      exact hleaf
    · rw [path_of_target hlink, path_of_target hg, hpath]
      rfl

/-- A walk that goes on from a new table and comes to a leaf. -/
theorem walked_of_newTable (ht : Tables own s) (hd : d ≤ 2)
    (hf : own f = some ⟨o, d + 1, part (d + 2) va⟩) (h0 : entry s.mem f (indexAt (d + 1) va) = 0)
    (hans : s.answers = some g :: s.answers.tail) (hpool : s.poolOf g = some .kernel)
    (hfree : s.used g = false) {pte : Nat}
    (hw : Walked (update own g (some ⟨o, d, 512 * part (d + 2) va + indexAt (d + 1) va⟩))
      (newTable s f g (indexAt (d + 1) va)) g o d va (some pte) s')
    (htakes : Takes (newTable s f g (indexAt (d + 1) va)) g d va (some pte) s') :
    Walked own s f o (d + 1) va (some pte) s' ∧ Takes s f (d + 1) va (some pte) s' := by
  have hidx := indexAt_lt (d + 1) va
  have hg1 := newTable_grows ht hf hd hidx h0 hfree
  obtain ⟨own', g', o', hpte, ht', hg', hown', hv, hleaf⟩ := hw
  obtain ⟨got, hgot, hans', hused', hpath⟩ := htakes
  have ho : ∀ o', Visits o d va o' → o' = o := by
    rintro o' (h | ⟨h3, -, -⟩)
    · exact h
    · omega
  have hlink : target (entry s'.mem f (indexAt (d + 1) va)) = some g := by
    rw [hg'.entries f _ (hg1.keeps f _ hf) _ hidx (target_ne_zero newTable_entry_new)]
    exact newTable_entry_new
  refine ⟨⟨own', g', o', hpte, ht', ?_, hown', .inl (ho o' hv), ?_⟩, g :: got,
    hgot.cons hans hpool hfree, ?_, ?_, ?_⟩
  · exact (hg1.mono fun o' h => .inl h).trans' (hg'.mono fun o' h => .inl (ho o' h))
  · rw [leafOf, hlink]
    exact hleaf
  · rw [hans', length_cons, ← drop_tail]
    rfl
  · intro h
    rw [hused' h, newTable_used_iff, mem_cons, or_assoc]
  · rw [path_of_target hlink, path_of_zero h0, hpath, path_zero_table (fun j hj =>
      newTable_entry_zero (ne_of_used (ht.used f _ hf).1 hfree).symm hidx hj) va]
    rfl

end Below

theorem walkLevel_createsLeaf (hindex : ∀ va, index va = indexAt (d + 1) va) (hd : d ≤ 2)
    (hnext : CreatesLeaf d next) : CreatesLeaf (d + 1) (walkLevel index next) := by
  intro own s f o va ht hf htop
  have hidx := indexAt_lt (d + 1) va
  have h3 : ∀ {o' : Option Nat}, d = 3 → o' = none → indexAt 3 va ≠ 0 :=
    fun h3 => absurd h3 (by omega)
  rw [walkLevel, hindex]
  simp only [kva_ne_zero, if_false, wp_bind, wp_read64]
  change wp (if entry s.mem f (indexAt (d + 1) va) &&& pteP = 0 then _ else
    next (ptov (pteAddr (entry s.mem f (indexAt (d + 1) va)))) va true) s _
  rcases ht.child f o d _ hf _ hidx with h0 | ⟨g, o', hg, hown, hco⟩
  · simp only [h0, Nat.zero_and, if_true, wp_bind]
    apply wp_pallocGetPage_answer rfl
    · intro g hans hpool hfree
      have hused := (ht.used f _ hf).1
      have hco : ChildOwner o d (indexAt (d + 1) va) o := by
        refine ⟨.inl rfl, ?_⟩
        rintro rfl ho
        exact htop rfl ho
      have ht1 := newTable_tables ht hf hidx hpool hfree hco
      have hown1 : update own g (some ⟨o, d, 512 * part (d + 1 + 1) va + indexAt (d + 1) va⟩) g
          = some ⟨o, d, part (d + 1) va⟩ := by
        rw [update_self, ← part_eq]
      simp only [wp_bind, wp_vtop_kva, wp_write64, wp_read64, take_write_eq_newTable]
      obtain ⟨-, -, hptov⟩ := target_some (entry_lt _ _ _)
        (newTable_entry_new (s := s) (f := f) (g := g) (i := indexAt (d + 1) va))
      change wp (next (ptov (pteAddr (entry (newTable s f g (indexAt (d + 1) va)).mem f
        (indexAt (d + 1) va)))) va true) _ _
      rw [hptov]
      refine wp_mono (hnext _ _ g o va ht1 hown1 h3) ?_
      rintro r s' ⟨hw, htakes⟩
      cases r with
      | none =>
        -- the tables below could not be made: give this one back
        have hnt : NoTrace (newTable s f g (indexAt (d + 1) va)) s' := hw
        obtain ⟨got, hgot, hans'⟩ := htakes
        have hent : entry s'.mem f (indexAt (d + 1) va) =
            entry (newTable s f g (indexAt (d + 1) va)).mem f (indexAt (d + 1) va) :=
          (hnt.page f ((newTable_used_other (ne_of_used hused hfree)).trans hused)).entry hidx
        simp only [wp_bind, wp_read64]
        change wp (pallocFreePage (ptov (pteAddr (entry s'.mem f (indexAt (d + 1) va))))) s' _
        rw [hent, hptov]
        apply wp_pallocFreePage
        · rw [hnt.pool]
          change s.poolOf g ≠ none
          rw [hpool]
          exact Option.some_ne_none _
        · rw [hnt.used]
          exact update_self ..
        · simp only [wp_write64, wp_pure]
          refine ⟨newTable_undo hused hidx h0 hfree hnt, g :: got, hgot.cons hans hpool hfree, ?_⟩
          change s'.answers = _
          rw [hans', length_cons, ← drop_tail]
          rfl
      | some pte =>
        rw [wp_pure]
        exact walked_of_newTable ht hd hf h0 hans hpool hfree hw htakes
    · simp only [wp_pure]
      exact ⟨noTrace_answers s _, [], obtained_nil s, rfl⟩
  · obtain ⟨hp, -, hptov⟩ := target_some (entry_lt s.mem f (indexAt (d + 1) va)) hg
    rw [← part_eq] at hown
    rw [if_neg hp, hptov]
    exact wp_mono (hnext own s g o' va ht hown h3) fun r s' hr =>
      walked_of_linked hd hf hg hco hr.1 hr.2

theorem pdpeWalk_createsLeaf : CreatesLeaf 2 pdpeWalk :=
  walkLevel_createsLeaf (fun va => (indexAt_two va).symm) (by omega) pgdirWalk_createsLeaf

theorem pml4eWalk_createsLeaf : CreatesLeaf 3 pml4eWalk :=
  walkLevel_createsLeaf (fun va => (indexAt_three va).symm) (by omega) pdpeWalk_createsLeaf

end Pintos.Threads.PageWalk
