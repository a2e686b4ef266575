import Pintos.Threads.Mmu

/-!
# The structure of page tables in memory

A ghost labelling gives every page that serves as a table its owner (the kernel, for the tables of
the base page map, or the page map at some address), its depth (0 for page tables, 3 for top
levels) and the address bits above the addresses that it translates. `Tables` says that the
present entries of a labelled table name tables one level below, labelled with the longer address.
Because a page carries one label, two different addresses never share a leaf entry; nothing has to
be said about trees.

`translate` is the leaf entry that a page map holds for an address, `0` where no leaf exists. A
walk that creates tables leaves every translation as it was (`Grows`), and a walk that fails
leaves no trace (`NoTrace`).
-/

set_option autoImplicit false

namespace Pintos.Threads.PageTables

open Lib.ByteMemory
open Vaddr Palloc

/-! ## Entries -/

/-- The bits of an address from the index at depth `d` upwards. -/
def part (d va : Nat) : Nat := va / 2 ^ (12 + 9 * d)

/-- The index into a table at depth `d`. -/
def indexAt (d va : Nat) : Nat := part d va % 512

/-- Entry `i` of the table in frame `f`. -/
def entry (m : Bytes) (f : Frame) (i : Nat) : Nat := readLE m 8 (kva f + 8 * i)

/-- The frame that a present entry names. -/
def target (e : Nat) : Option Frame :=
  if e % 2 = 0 then none
  else if h : e / 4096 < frameCnt then some ⟨e / 4096, h⟩ else none

/-- The page table that holds the leaf entry for `va`, from the table `f` at depth `d`. -/
def leafOf (m : Bytes) : Nat → Frame → Nat → Option Frame
  | 0, f, _ => some f
  | d + 1, f, va => (target (entry m f (indexAt (d + 1) va))).bind fun g => leafOf m d g va

/-- The leaf entry for `va`, from the table `f` at depth `d`; `0` where no leaf exists. -/
def translate (m : Bytes) : Nat → Frame → Nat → Nat
  | 0, f, va => entry m f (indexAt 0 va)
  | d + 1, f, va =>
    match target (entry m f (indexAt (d + 1) va)) with
    | none => 0
    | some g => translate m d g va

/-- The two memories agree on the page of `f`. -/
def SamePage (m m' : Bytes) (f : Frame) : Prop := ∀ x, kva f ≤ x → x < kva f + 4096 → m' x = m x

theorem SamePage.refl (m : Bytes) (f : Frame) : SamePage m m f := fun _ _ _ => rfl

variable {m m' : Bytes} {f g : Frame} {d va va' : Nat}

theorem SamePage.trans {m'' : Bytes} (h : SamePage m m' f) (h' : SamePage m' m'' f) :
    SamePage m m'' f :=
  fun x h1 h2 => (h' x h1 h2).trans (h x h1 h2)

theorem entry_lt (m : Bytes) (f : Frame) (i : Nat) : entry m f i < 2 ^ 64 := by
  have h := readLE_lt m 8 (kva f + 8 * i)
  exact h

theorem SamePage.entry (h : SamePage m m' f) {i : Nat} (hi : i < 512) :
    entry m' f i = entry m f i := by
  apply readLE_congr
  intro j hj
  exact h _ (by omega) (by omega)

theorem indexAt_lt (d va : Nat) : indexAt d va < 512 := Nat.mod_lt _ (by norm_num)

/-- The bits from depth `d` upwards are those above it followed by the index. -/
theorem part_eq (d va : Nat) : part d va = 512 * part (d + 1) va + indexAt d va := by
  have h : part (d + 1) va = part d va / 512 := by
    have e : 12 + 9 * (d + 1) = 12 + 9 * d + 9 := by omega
    rw [part, part, Nat.div_div_eq_div_mul, e, pow_add]
    rfl
  rw [h, indexAt]
  omega

theorem indexAt_zero (va : Nat) : indexAt 0 va = ptx va := (ptx_eq va).symm

theorem indexAt_one (va : Nat) : indexAt 1 va = pdx va := (pdx_eq va).symm

theorem indexAt_two (va : Nat) : indexAt 2 va = pdpeIndex va := (pdpeIndex_eq va).symm

theorem indexAt_three (va : Nat) : indexAt 3 va = pml4Index va := (pml4Index_eq va).symm

@[simp] theorem target_zero : target 0 = none := rfl

/-- A named frame is where `ptov` and `PTE_ADDR` lead. -/
theorem target_some {e : Nat} (he : e < 2 ^ 64) (h : target e = some g) :
    e &&& pteP ≠ 0 ∧ pteAddr e = 4096 * g.val ∧ ptov (pteAddr e) = kva g := by
  unfold target at h
  split at h
  · cases h
  · rename_i hp
    split at h
    · cases h
      have ha : pteAddr e = 4096 * (e / 4096) := by
        rw [pteAddr_eq he]
        omega
      refine ⟨by rw [and_pteP]; exact hp, ha, ?_⟩
      rw [ha]
      exact ptov_physical ⟨e / 4096, by assumption⟩
    · cases h

/-- The entry that the walks write for a new table. -/
theorem target_new (g : Frame) :
    target (4096 * g.val ||| pteU ||| pteW ||| pteP) = some g ∧
      4096 * g.val ||| pteU ||| pteW ||| pteP < 2 ^ 64 := by
  have hg := g.isLt
  have hv : 4096 * g.val ||| pteU ||| pteW ||| pteP = 4096 * g.val + 7 := by
    rw [Nat.or_assoc, Nat.or_assoc]
    exact or_flags (by omega) (by decide)
  have hdiv : (4096 * g.val + 7) / 4096 = g.val := by omega
  have hmod : (4096 * g.val + 7) % 2 = 1 := by omega
  rw [hv]
  constructor
  · simp only [target, hmod, hdiv, hg, dif_pos]
    rfl
  · simp only [frameCnt] at hg
    omega

/-! ## The effect of stores on entries -/

section Stores

variable {m : Bytes} {f g : Frame} {i j v : Nat}

theorem entry_write_same : entry (writeLE m 8 (kva f + 8 * i) v) f i = v % 2 ^ 64 := by
  rw [entry, readLE_writeLE]
  norm_num

theorem entry_write_other (hi : i < 512) (hj : j < 512) (h : g ≠ f ∨ j ≠ i) :
    entry (writeLE m 8 (kva f + 8 * i) v) g j = entry m g j := by
  apply readLE_writeLE_outside
  by_cases hgf : g = f
  · subst hgf
    have hji : j ≠ i := by
      rcases h with h | h
      · exact absurd rfl h
      · exact h
    omega
  · rcases kva_disjoint hgf with h' | h' <;> omega

/-- Overwriting bytes of one page leaves the other pages. -/
theorem samePage_patch {a n : Nat} {c : Nat → UInt8} (ha : kva f ≤ a) (hn : a + n ≤ kva f + 4096)
    (h : g ≠ f) : SamePage m (patch m a n c) g := by
  intro x h1 h2
  apply patch_outside
  rcases kva_disjoint h with h' | h' <;> omega

theorem samePage_page {c : Nat → UInt8} (h : g ≠ f) : SamePage m (patch m (kva f) 4096 c) g :=
  samePage_patch le_rfl le_rfl h

theorem samePage_write (hi : i < 512) (h : g ≠ f) :
    SamePage m (writeLE m 8 (kva f + 8 * i) v) g :=
  samePage_patch (by omega) (by omega) h

theorem entry_fill_zero (hi : i < 512) : entry (fill m (kva f) pgSize 0) f i = 0 :=
  readLE_fill_zero (by omega) (by simp only [pgSize]; omega)

end Stores

theorem translate_of_leafOf_none (h : leafOf m d f va = none) : translate m d f va = 0 := by
  induction d generalizing f with
  | zero => simp [leafOf] at h
  | succ d ih =>
    rw [leafOf] at h
    rw [translate]
    cases ht : target (entry m f (indexAt (d + 1) va)) with
    | none => rfl
    | some g =>
      rw [ht] at h
      exact ih h

theorem translate_of_leafOf_some (h : leafOf m d f va = some g) :
    translate m d f va = entry m g (indexAt 0 va) := by
  induction d generalizing f with
  | zero =>
    cases h
    rfl
  | succ d ih =>
    rw [leafOf] at h
    rw [translate]
    cases ht : target (entry m f (indexAt (d + 1) va)) with
    | none =>
      rw [ht] at h
      cases h
    | some g' =>
      rw [ht] at h
      exact ih h

/-- Addresses of one page have the same indices at every depth. -/
theorem part_same_page (h : va' / 4096 = va / 4096) (d : Nat) :
    part d va' = part d va := by
  have hdiv : ∀ x, part d x = x / 4096 / 2 ^ (9 * d) := by
    intro x
    rw [part, Nat.div_div_eq_div_mul, pow_add]
    rfl
  rw [hdiv, hdiv, h]

theorem leafOf_same_page (h : va' / 4096 = va / 4096) :
    ∀ (d : Nat) (f : Frame), leafOf m d f va' = leafOf m d f va := by
  intro d
  induction d with
  | zero => exact fun f => rfl
  | succ d ih =>
    intro f
    rw [leafOf, leafOf, indexAt, part_same_page h, ← indexAt]
    cases target (entry m f (indexAt (d + 1) va)) with
    | none => rfl
    | some g => exact ih g

theorem translate_same_page (h : va' / 4096 = va / 4096) (d : Nat) (f : Frame) :
    translate m d f va' = translate m d f va := by
  have hleaf := leafOf_same_page (m := m) h d f
  cases hl : leafOf m d f va with
  | none => rw [translate_of_leafOf_none hl, translate_of_leafOf_none (hleaf.trans hl)]
  | some g =>
    rw [translate_of_leafOf_some hl, translate_of_leafOf_some (hleaf.trans hl), indexAt,
      part_same_page h, ← indexAt]

/-- A table whose entries are all `0` translates nothing. -/
theorem translate_zero_table (h : ∀ i < 512, entry m f i = 0) (va : Nat) :
    translate m d f va = 0 := by
  cases d with
  | zero => exact h _ (indexAt_lt 0 va)
  | succ d =>
    rw [translate, h _ (indexAt_lt (d + 1) va)]
    rfl

/-! ## Labelled tables -/

/-- What a page is used for as a table. -/
structure Label where
  /-- The page map whose private table this is; `none` for the tables of the base page map. -/
  owner : Option Nat
  /-- Depth: 0 for a page table, 3 for a top level. -/
  depth : Nat
  /-- The address bits above the addresses translated here. -/
  key : Nat

/-- The owners that a table named by entry `i` of a table of owner `o` may have, `d` being the
depth of the named table. A top level names its own tables and, except at index 0, those of the
base page map. -/
def ChildOwner (o : Option Nat) (d i : Nat) (o' : Option Nat) : Prop :=
  (o' = o ∨ (d = 2 ∧ o' = none)) ∧ (d = 2 → o' = none → i ≠ 0)

/-- Labelled pages are allocated from the kernel pool, and entries of labelled tables are `0` or
name labelled tables one level below. -/
structure Tables (own : Frame → Option Label) (s : Machine) : Prop where
  used : ∀ f l, own f = some l → s.used f = true ∧ s.poolOf f = some .kernel
  child : ∀ f o d k, own f = some ⟨o, d + 1, k⟩ → ∀ i < 512,
    entry s.mem f i = 0 ∨ ∃ g o', target (entry s.mem f i) = some g ∧
      own g = some ⟨o', d, 512 * k + i⟩ ∧ ChildOwner o d i o'

/-- The frame `r` is the top level of a well-formed page map: some labelling of the table pages has
it at depth 3. Who owns which table plays no part, so all tables have one owner here. -/
def PageMapAt (s : Machine) (r : Frame) : Prop :=
  ∃ own, Tables own s ∧ own r = some ⟨some 0, 3, 0⟩

variable {own : Frame → Option Label} {s s' : Machine} {o : Option Nat}

/-- A table is not a free page. -/
theorem Tables.ne_free (ht : Tables own s) {l : Label} (hf : own f = some l)
    (hg : s.used g = false) :
    f ≠ g :=
  ne_of_used (ht.used f l hf).1 hg

/-- The owners whose tables a walk for `va` from a table of owner `o` at depth `d` visits. -/
def Visits (o : Option Nat) (d va : Nat) (o' : Option Nat) : Prop :=
  o' = o ∨ (d = 3 ∧ o' = none ∧ indexAt 3 va ≠ 0)

/-- Nothing but free pages and the allocator's later answers differs between the machines. -/
structure NoTrace (s s' : Machine) : Prop where
  used : s'.used = s.used
  pool : s'.poolOf = s.poolOf
  base : s'.basePml4 = s.basePml4
  page : ∀ f, s.used f = true → SamePage s.mem s'.mem f

/-- Tables have been added, all for owners that satisfy `touch`, without changing a translation. -/
structure Grows (touch : Option Nat → Prop) (own own' : Frame → Option Label) (s s' : Machine) :
    Prop where
  keeps : ∀ f l, own f = some l → own' f = some l
  fresh : ∀ f l, own' f = some l → own f = some l ∨
    (s.used f = false ∧ touch l.owner ∧ l.depth ≤ 2)
  used : ∀ f, s.used f = true → s'.used f = true
  usedNew : ∀ f, s'.used f = true → s.used f = true ∨ ∃ l, own' f = some l
  pool : s'.poolOf = s.poolOf
  base : s'.basePml4 = s.basePml4
  page : ∀ f, s.used f = true → (∀ l, own f = some l → ¬ touch l.owner) →
    SamePage s.mem s'.mem f
  entries : ∀ f l, own f = some l → ∀ i < 512, entry s.mem f i ≠ 0 →
    entry s'.mem f i = entry s.mem f i
  trans : ∀ f l, own f = some l → ∀ va, translate s'.mem l.depth f va = translate s.mem l.depth f va

theorem Grows.refl (touch : Option Nat → Prop) (own : Frame → Option Label) (s : Machine) :
    Grows touch own own s s where
  keeps := fun _ _ h => h
  fresh := fun _ _ h => .inl h
  used := fun _ h => h
  usedNew := fun _ h => .inl h
  pool := rfl
  base := rfl
  page := fun f _ _ => SamePage.refl s.mem f
  entries := fun _ _ _ _ _ _ => rfl
  trans := fun _ _ _ _ => rfl

theorem Grows.trans' {touch : Option Nat → Prop} {own' own'' : Frame → Option Label} {s'' : Machine}
    (h : Grows touch own own' s s') (h' : Grows touch own' own'' s' s'') :
    Grows touch own own'' s s'' where
  keeps := fun f l hl => h'.keeps f l (h.keeps f l hl)
  fresh := by
    intro f l hl
    rcases h'.fresh f l hl with hl' | ⟨hu, ht, hd⟩
    · exact h.fresh f l hl'
    · have hu0 : s.used f = false := by
        cases hu1 : s.used f with
        | false => rfl
        | true =>
          rw [h.used f hu1] at hu
          cases hu
      exact .inr ⟨hu0, ht, hd⟩
  used := fun f hf => h'.used f (h.used f hf)
  usedNew := by
    intro f hf
    rcases h'.usedNew f hf with hf' | hf'
    · rcases h.usedNew f hf' with hf0 | ⟨l, hl⟩
      · exact .inl hf0
      · exact .inr ⟨l, h'.keeps f l hl⟩
    · exact .inr hf'
  pool := h'.pool.trans h.pool
  base := h'.base.trans h.base
  page := by
    intro f hf hno
    refine (h.page f hf hno).trans (h'.page f (h.used f hf) ?_)
    intro l hl
    rcases h.fresh f l hl with hl' | ⟨hu, -, -⟩
    · exact hno l hl'
    · rw [hf] at hu
      cases hu
  entries := by
    intro f l hl i hi hne
    have h1 := h.entries f l hl i hi hne
    rw [← h1] at hne
    exact (h'.entries f l (h.keeps f l hl) i hi hne).trans h1
  trans := fun f l hl va => (h'.trans f l (h.keeps f l hl) va).trans (h.trans f l hl va)

theorem Grows.mono {touch touch' : Option Nat → Prop} {own' : Frame → Option Label}
    (h : Grows touch own own' s s') (ht : ∀ o, touch o → touch' o) :
    Grows touch' own own' s s' where
  keeps := h.keeps
  fresh := by
    intro f l hl
    rcases h.fresh f l hl with hl' | ⟨hu, hto, hd⟩
    · exact .inl hl'
    · exact .inr ⟨hu, ht _ hto, hd⟩
  used := h.used
  usedNew := h.usedNew
  pool := h.pool
  base := h.base
  page := fun f hf hno => h.page f hf fun l hl hto => hno l hl (ht _ hto)
  entries := h.entries
  trans := h.trans

/-- Labels are kept along entries: a leaf for `va` is labelled with the bits of `va`. -/
theorem Tables.leafOf_label (ht : Tables own s) (hd : d ≤ 3)
    (hf : own f = some ⟨o, d, part (d + 1) va⟩) (h : leafOf s.mem d f va = some g) :
    ∃ o', own g = some ⟨o', 0, part 1 va⟩ ∧ Visits o d va o' := by
  induction d generalizing f o with
  | zero =>
    cases h
    exact ⟨o, hf, .inl rfl⟩
  | succ d ih =>
    rw [leafOf] at h
    rcases ht.child f o d _ hf (indexAt (d + 1) va) (indexAt_lt _ _) with h0 |
      ⟨g', o', hg', hown, hco⟩
    · rw [h0] at h
      cases h
    · rw [hg'] at h
      rw [← part_eq] at hown
      obtain ⟨o'', hg, hv⟩ := ih (by omega) hown h
      refine ⟨o'', hg, ?_⟩
      -- below the top level the owner no longer changes
      have ho : o'' = o' := by
        rcases hv with rfl | ⟨h3, -, -⟩
        · rfl
        · omega
      subst ho
      rcases hco with ⟨rfl | ⟨rfl, rfl⟩, h2⟩
      · exact .inl rfl
      · exact .inr ⟨rfl, rfl, h2 rfl rfl⟩

/-- A table that an entry of a labelled table names is labelled. -/
theorem Tables.child_of_target (ht : Tables own s) {k i : Nat} (hf : own f = some ⟨o, d + 1, k⟩)
    (hi : i < 512) (h : target (entry s.mem f i) = some g) :
    ∃ o', own g = some ⟨o', d, 512 * k + i⟩ ∧ ChildOwner o d i o' := by
  rcases ht.child f o d k hf i hi with h0 | ⟨g', o', hg', hown, hco⟩
  · rw [h0] at h
    cases h
  · rw [h] at hg'
    cases hg'
    exact ⟨o', hown, hco⟩

/-- Tables whose pages are unchanged translate as before. -/
theorem Tables.translate_congr (ht : Tables own s)
    (hsame : ∀ f l, own f = some l → SamePage s.mem m' f) (va : Nat) :
    ∀ (d : Nat) (f : Frame) (o : Option Nat) (k : Nat), own f = some ⟨o, d, k⟩ →
      translate m' d f va = translate s.mem d f va := by
  intro d
  induction d with
  | zero => exact fun f o k hf => (hsame f _ hf).entry (indexAt_lt _ _)
  | succ d ih =>
    intro f o k hf
    rw [translate, translate, (hsame f _ hf).entry (indexAt_lt _ _)]
    rcases ht.child f o d k hf _ (indexAt_lt (d + 1) va) with h0 | ⟨g, o', hg, hown, -⟩
    · rw [h0]
      rfl
    · rw [hg]
      exact ih g o' _ hown

theorem NoTrace.tables (h : NoTrace s s') (ht : Tables own s) : Tables own s' where
  used := by
    intro f l hl
    rw [h.used, h.pool]
    exact ht.used f l hl
  child := by
    intro f o d k hf i hi
    rw [(h.page f (ht.used f _ hf).1).entry hi]
    exact ht.child f o d k hf i hi

theorem NoTrace.translate (h : NoTrace s s') (ht : Tables own s) {k : Nat}
    (hf : own f = some ⟨o, d, k⟩) (va : Nat) : translate s'.mem d f va = translate s.mem d f va :=
  ht.translate_congr (fun g l hl => h.page g (ht.used g l hl).1) va d f o k hf

end Pintos.Threads.PageTables
