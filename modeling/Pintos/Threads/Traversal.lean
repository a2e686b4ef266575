import Pintos.Threads.WalkPages

/-!
# Visiting every mapped page

`pml4_for_each` goes through four nested loops and makes up the virtual address of an entry from
the loops' counters. `leavesFrom` lists what it is meant to visit: the present leaf entries with
their addresses, in the order of the tables. The first half of this module says that the traversal
is the same computation as calling the callback on that list until it answers no, whatever else
the callback does, as long as an invariant of its calls keeps which entries are present
(`KeepsShape`). The second half says that the list is right: its addresses increase, and each is the
one page-aligned address for which `pml4e_walk` finds the entry.
-/

set_option autoImplicit false

namespace Pintos.Threads.Traversal

open Lib.StateExcept Lib.ByteMemory List
open Vaddr Palloc Mmu
open PageTables PageMap
open WalkPages
open Isolation (firstMap)

/-! ## Addresses from indices -/

variable {a b i d va k : Nat} {g r f : Frame} {n c va' : Nat} {s : Machine}

/-- Joining an index to the bits above it. -/
theorem or_shift_eq (hb : b < 2 ^ n) : (a <<< n) ||| b = a * 2 ^ n + b := by
  rw [Nat.shiftLeft_eq, mul_comm]
  exact (Nat.two_pow_add_eq_or_of_lt hb a).symm

/-- The address that `pt_for_each` makes up is the page number with its four indices as digits. -/
theorem address_eq (hb : b < 512) (hc : c < 512) (hi : i < 512) :
    a <<< 39 ||| b <<< 30 ||| c <<< 21 ||| i <<< 12 =
      4096 * (512 * (512 * (512 * a + b) + c) + i) := by
  have h12 : i <<< 12 = 4096 * i := by rw [Nat.shiftLeft_eq, mul_comm]
  have h21 : c <<< 21 ||| 4096 * i = c * 2 ^ 21 + 4096 * i := or_shift_eq (by omega)
  have h30 : b <<< 30 ||| (c * 2 ^ 21 + 4096 * i) = b * 2 ^ 30 + (c * 2 ^ 21 + 4096 * i) :=
    or_shift_eq (by omega)
  have h39 : a <<< 39 ||| (b * 2 ^ 30 + (c * 2 ^ 21 + 4096 * i)) =
      a * 2 ^ 39 + (b * 2 ^ 30 + (c * 2 ^ 21 + 4096 * i)) := or_shift_eq (by omega)
  rw [Nat.or_assoc, Nat.or_assoc, h12, h21, h30, h39]
  ring

/-- An absent entry, turned into a kernel virtual address, is still absent. -/
theorem ptov_zero_present : ptov 0 &&& pteP = 0 := by decide

/-- A present entry, turned into a kernel virtual address, is present and masked to the table's
address: `KERN_BASE` is page aligned. -/
theorem ptov_target {e : Nat} (he : e < 2 ^ 64) (h : target e = some g) :
    ptov e &&& pteP ≠ 0 ∧ pteAddr (ptov e) = kva g := by
  obtain ⟨hp, ha, -⟩ := target_some he h
  obtain ⟨-, -, hlt⟩ := kva_facts g
  rw [pteAddr_eq he] at ha
  rw [and_pteP] at hp
  simp only [kva, kernBase] at hlt
  have hptov : ptov e = e + kernBase := Nat.mod_eq_of_lt (by simp only [kernBase]; omega)
  have hlt64 : e + kernBase < 2 ^ 64 := by simp only [kernBase]; omega
  rw [hptov, and_pteP, pteAddr_eq hlt64, kva]
  simp only [kernBase]
  omega

/-! ## What there is to visit -/

/-- The present leaf entries below the table `f` at depth `d`, with their addresses; `k` are the
address bits above the table's. -/
def leavesFrom (m : Bytes) : Nat → Frame → Nat → List (Nat × Nat)
  | 0, f, k => (List.range 512).flatMap fun i =>
    if entry m f i % 2 = 1 then [(kva f + 8 * i, 4096 * (512 * k + i))] else []
  | d + 1, f, k => (List.range 512).flatMap fun i =>
    match target (entry m f i) with
    | none => []
    | some g => leavesFrom m d g (512 * k + i)

/-! ## The list is right -/

/-- An address lies below a table exactly when it lies below one of its entries. -/
theorem part_succ_eq_iff (hi : i < 512) :
    part (d + 1) va = k ∧ indexAt d va = i ↔ part d va = 512 * k + i := by
  have h := part_eq d va
  have hlt := indexAt_lt d va
  omega

theorem part_zero_eq_iff : va % 4096 = 0 ∧ part 0 va = n ↔ va = 4096 * n := by
  have h : part 0 va = va / 4096 := rfl
  omega

/-- The list has the present leaf entries of the addresses below the table. -/
theorem mem_leavesFrom_iff (m : Bytes) (d : Nat) : ∀ (f : Frame) (k pte va : Nat),
    (pte, va) ∈ leavesFrom m d f k ↔ va % 4096 = 0 ∧ part (d + 1) va = k ∧
      ∃ g, leafOf m d f va = some g ∧ pte = kva g + 8 * indexAt 0 va ∧
        entry m g (indexAt 0 va) % 2 = 1 := by
  induction d with
  | zero =>
    intro f k pte va
    rw [leavesFrom, mem_flatMap]
    constructor
    · rintro ⟨i, hi, hmem⟩
      have hi' : i < 512 := mem_range.1 hi
      split_ifs at hmem with hp
      · obtain ⟨rfl, rfl⟩ := Prod.mk.inj (mem_singleton.1 hmem)
        obtain ⟨hal, hpart⟩ := part_zero_eq_iff.2 (rfl : 4096 * (512 * k + i) = _)
        obtain ⟨hkey, hidx⟩ := (part_succ_eq_iff hi').2 hpart
        refine ⟨hal, hkey, f, rfl, ?_, ?_⟩
        · rw [hidx]
        · rw [hidx]
          exact hp
      · cases hmem
    · rintro ⟨hal, hkey, g, hleaf, rfl, hp⟩
      cases hleaf
      refine ⟨indexAt 0 va, mem_range.2 (indexAt_lt 0 va), ?_⟩
      have hva : va = 4096 * (512 * k + indexAt 0 va) :=
        part_zero_eq_iff.1 ⟨hal, (part_succ_eq_iff (indexAt_lt 0 va)).1 ⟨hkey, rfl⟩⟩
      rw [if_pos hp, ← hva]
      exact mem_singleton.2 rfl
  | succ d ih =>
    intro f k pte va
    rw [leavesFrom, mem_flatMap, leafOf]
    constructor
    · rintro ⟨i, hi, hmem⟩
      have hi' : i < 512 := mem_range.1 hi
      cases ht : target (entry m f i) with
      | none =>
        rw [ht] at hmem
        cases hmem
      | some g =>
        rw [ht] at hmem
        obtain ⟨hal, hkey, hleaf⟩ := (ih g _ pte va).1 hmem
        obtain ⟨hkey', rfl⟩ := (part_succ_eq_iff hi').2 hkey
        refine ⟨hal, hkey', ?_⟩
        rw [ht]
        exact hleaf
    · rintro ⟨hal, hkey, hleaf⟩
      refine ⟨indexAt (d + 1) va, mem_range.2 (indexAt_lt (d + 1) va), ?_⟩
      cases ht : target (entry m f (indexAt (d + 1) va)) with
      | none =>
        rw [ht] at hleaf
        obtain ⟨g, hg, -⟩ := hleaf
        cases hg
      | some g =>
        rw [ht] at hleaf
        exact (ih g _ pte va).2
          ⟨hal, (part_succ_eq_iff (indexAt_lt (d + 1) va)).1 ⟨hkey, rfl⟩, hleaf⟩

/-- A smaller index, at the same depth, is a smaller address. -/
theorem lt_of_part_lt (h : part d va < part d va') : va < va' :=
  lt_of_not_ge fun hle => absurd (Nat.div_le_div_right hle) (not_le.2 h)

/-- The addresses of the list increase. -/
theorem pairwise_leavesFrom (m : Bytes) (d : Nat) : ∀ (f : Frame) (k : Nat),
    (leavesFrom m d f k).Pairwise fun a b => a.2 < b.2 := by
  induction d with
  | zero =>
    intro f k
    rw [leavesFrom, pairwise_flatMap]
    constructor
    · intro i _
      split_ifs
      · exact pairwise_singleton _ _
      · exact List.Pairwise.nil
    · refine pairwise_lt_range.imp ?_
      intro i j hij p hp q hq
      split_ifs at hp hq
      · rw [mem_singleton.1 hp, mem_singleton.1 hq]
        omega
      all_goals simp at hp hq
  | succ d ih =>
    intro f k
    rw [leavesFrom, pairwise_flatMap]
    constructor
    · intro i _
      cases target (entry m f i) with
      | none => exact List.Pairwise.nil
      | some g => exact ih g _
    · refine pairwise_lt_range.imp ?_
      intro i j hij p hp q hq
      cases hti : target (entry m f i) with
      | none =>
        rw [hti] at hp
        cases hp
      | some g =>
        cases htj : target (entry m f j) with
        | none =>
          rw [htj] at hq
          cases hq
        | some h =>
          rw [hti] at hp
          rw [htj] at hq
          obtain ⟨-, hpk, -⟩ := (mem_leavesFrom_iff m d g _ p.1 p.2).1 hp
          obtain ⟨-, hqk, -⟩ := (mem_leavesFrom_iff m d h _ q.1 q.2).1 hq
          apply lt_of_part_lt (d := d + 1)
          omega

theorem inTree_of_leafOf {m : Bytes} (hf : InTree m r d f) (h : leafOf m d f va = some g) :
    InTree m r 0 g := by
  induction d generalizing f with
  | zero =>
    cases h
    exact hf
  | succ d ih =>
    obtain ⟨g', hg', hleaf⟩ := Option.bind_eq_some_iff.1 h
    exact ih (InTree.child hf (indexAt_lt _ _) hg') hleaf

/-! ## The traversal visits the list -/

/-- In `t` the page map at `r` has the tables that it has in `s`, and the same leaf entries are
present. -/
def SameShape (s : Machine) (r : Frame) (t : Machine) : Prop :=
  ∀ d f, InTree s.mem r d f → ∀ i < 512,
    if d = 0 then entry t.mem f i % 2 = entry s.mem f i % 2 else entry t.mem f i = entry s.mem f i

/-- The address of an entry of a leaf table of the page map at `r`. -/
def LeafEntry (s : Machine) (r : Frame) (pte : Nat) : Prop :=
  ∃ g i, InTree s.mem r 0 g ∧ i < 512 ∧ pte = kva g + 8 * i

/-- The invariant `I` holds before the traversal, each call of the callback with a leaf entry of the
page map at `r` keeps it, and it says that the same entries are present. The callback may change
entries otherwise, take and give back pages, and change the rest of memory as it likes. -/
structure KeepsShape (s : Machine) (r : Frame) (func : Nat → Nat → KernelM Bool)
    (I : Machine → Prop) : Prop where
  start : I s
  shape : ∀ t, I t → SameShape s r t
  kept : ∀ pte va t, LeafEntry s r pte → I t → wlp (func pte va) t fun _ t' => I t'

theorem leafEntry_of_mem (hf : InTree s.mem r d f) {p : Nat × Nat}
    (hp : p ∈ leavesFrom s.mem d f k) :
    LeafEntry s r p.1 := by
  obtain ⟨-, -, g, hleaf, hpte, -⟩ := (mem_leavesFrom_iff s.mem d f k p.1 p.2).1 hp
  exact ⟨g, _, inTree_of_leafOf hf hleaf, indexAt_lt 0 p.2, hpte⟩

/-- The computation that a correct traversal is: call `func` on the listed entries, one after the
other, until it answers no. -/
def callEach (func : Nat → Nat → KernelM Bool) (l : List (Nat × Nat)) : KernelM Bool :=
  l.allM fun p => func p.1 p.2

theorem callEach_singleton (func : Nat → Nat → KernelM Bool) (pte va : Nat) :
    callEach func [(pte, va)] = func pte va := by
  have hpure : (fun b : Bool => match b with
      | true => (pure true : KernelM Bool) | false => pure false) = pure := by
    funext b
    cases b with
    | true => rfl
    | false => rfl
  change (func pte va >>= fun b => match b with | true => pure true | false => pure false) = _
  rw [hpure, bind_pure]

section Execution

variable {s : Machine} {r : Frame} {func : Nat → Nat → KernelM Bool} {t : Machine}
  {own : Frame → Option Label} {o : Option Nat} {I : Machine → Prop}

section

variable (hfunc : KeepsShape s r func I)
include hfunc

theorem callEach_keeps {l : List (Nat × Nat)} (hl : ∀ p ∈ l, LeafEntry s r p.1)
    (ht : I t) :
    wlp (callEach func l) t fun _ t' => I t' := by
  induction l generalizing t with
  | nil => exact (wlp_pure true t _).2 ht
  | cons p l ih =>
    change wlp (func p.1 p.2 >>= fun b => match b with
      | true => callEach func l | false => pure false) t _
    rw [wlp_bind]
    refine wlp_mono (hfunc.kept p.1 p.2 t (hl p mem_cons_self) ht) ?_
    intro b t' ht'
    cases b with
    | true => exact ih (fun q hq => hl q (mem_cons_of_mem p hq)) ht'
    | false => exact (wlp_pure false t' _).2 ht'

/-- The loop over the entries of one table, from what each entry contributes. -/
theorem visitEntries_eq {visit : Nat → KernelM Bool} {part : Nat → List (Nat × Nat)} (n : Nat) :
    ∀ i,
    (∀ j, i ≤ j → j < i + n → (∀ p ∈ part j, LeafEntry s r p.1) ∧
      ∀ t, I t → visit j t = callEach func (part j) t) →
    ∀ t, I t →
      visitEntries visit n i t = callEach func ((List.range' i n).flatMap part) t := by
  induction n with
  | zero => exact fun _ _ _ _ => rfl
  | succ n ih =>
    intro i hvisit t ht
    have hrest := ih (i + 1) fun j h1 h2 => hvisit j (by omega) (by omega)
    rw [List.range'_succ, flatMap_cons, callEach, allM_append]
    obtain ⟨hleaf, hone⟩ := hvisit i le_rfl (by omega)
    refine bind_congr_at (hone t ht) ?_
    intro b t' hb
    cases b with
    | true => exact hrest t' (callEach_keeps hfunc hleaf ht true t' hb)
    | false => rfl

theorem ptForEach_eq (hf : InTree s.mem r 0 f) (hb : b < 512) (hc : c < 512)
    (ht : I t) :
    ptForEach func (kva f) a b c t =
      callEach func (leavesFrom s.mem 0 f (512 * (512 * a + b) + c)) t := by
  rw [leavesFrom, range_eq_range']
  refine visitEntries_eq hfunc 512 0 ?_ t ht
  intro i _ hi
  refine ⟨?_, ?_⟩
  · intro p hp
    split_ifs at hp with hpres
    · rw [mem_singleton.1 hp]
      exact ⟨f, i, hf, by omega, rfl⟩
    · cases hp
  intro t ht
  have hsame : entry t.mem f i % 2 = entry s.mem f i % 2 :=
    hfunc.shape t ht 0 f hf i (by omega)
  change (if entry t.mem f i &&& pteP ≠ 0 then
    func (kva f + 8 * i) (a <<< 39 ||| b <<< 30 ||| c <<< 21 ||| i <<< 12) else pure true) t = _
  rw [and_pteP, hsame, address_eq hb hc (by omega)]
  rcases Nat.mod_two_eq_zero_or_one (entry s.mem f i) with hp | hp
  · rw [hp, if_neg (by decide), if_neg (by decide)]
    rfl
  · rw [hp, if_pos (by decide), if_pos rfl, callEach_singleton]

/-- One level: the tables below are traversed, so this one is. -/
theorem tableForEach_eq (htab : Tables own s) (hf : InTree s.mem r (d + 1) f)
    (hown : own f = some ⟨o, d + 1, k⟩) {below : Nat → Nat → KernelM Bool}
    (hbelow : ∀ i < 512, ∀ g o', InTree s.mem r d g → own g = some ⟨o', d, 512 * k + i⟩ →
      ∀ t, I t →
        below (kva g) i t = callEach func (leavesFrom s.mem d g (512 * k + i)) t)
    (ht : I t) :
    tableForEach below (kva f) t = callEach func (leavesFrom s.mem (d + 1) f k) t := by
  rw [leavesFrom, range_eq_range']
  refine visitEntries_eq hfunc 512 0 ?_ t ht
  intro i _ hi
  have hi' : i < 512 := by omega
  refine ⟨?_, ?_⟩
  · intro p hp
    cases hg : target (entry s.mem f i) with
    | none =>
      rw [hg] at hp
      cases hp
    | some g =>
      rw [hg] at hp
      exact leafEntry_of_mem (InTree.child hf hi' hg) hp
  intro t ht
  have hsame : readLE t.mem 8 (kva f + 8 * i) = entry s.mem f i :=
    hfunc.shape t ht (d + 1) f hf i hi'
  refine (read64_bind _ _).trans ?_
  rw [hsame]
  rcases htab.child f o d k hown i hi' with h0 | ⟨g, o', hg, hown', -⟩
  · rw [h0, if_neg (not_not.2 ptov_zero_present)]
    rfl
  · obtain ⟨hp, ha⟩ := ptov_target (entry_lt s.mem f i) hg
    rw [if_pos hp, ha, hg]
    exact hbelow i hi' g o' (InTree.child hf hi' hg) hown' t ht

/-- The traversal calls the callback on the list of present leaf entries. -/
theorem pml4ForEach_eq (htab : Tables own s) (hr : own r = some ⟨o, 3, 0⟩) :
    pml4ForEach func (kva r) s = callEach func (leavesFrom s.mem 3 r 0) s := by
  have hpdp : ∀ a b, b < 512 → ∀ g o', InTree s.mem r 1 g → own g = some ⟨o', 1, 512 * a + b⟩ →
      ∀ t, I t →
        pgdirForEach func (kva g) a b t = callEach func (leavesFrom s.mem 1 g (512 * a + b)) t := by
    intro a b hb g o' hg hown t ht
    apply tableForEach_eq hfunc htab hg hown _ ht
    intro c hc h o'' hh _ t ht
    exact ptForEach_eq hfunc hh hb hc ht
  have hpml4 : ∀ a, ∀ f o', InTree s.mem r 2 f → own f = some ⟨o', 2, a⟩ →
      ∀ t, I t →
        pdpForEach func (kva f) a t = callEach func (leavesFrom s.mem 2 f a) t := by
    intro a f o' hf hown t ht
    apply tableForEach_eq hfunc htab hf hown _ ht
    intro b hb g o'' hg hown' t ht
    exact hpdp a b hb g o'' hg hown' t ht
  apply tableForEach_eq hfunc htab InTree.root hr _ hfunc.start
  intro a _ f o' hf hown t ht
  rw [mul_zero, zero_add] at hown ⊢
  exact hpml4 a f o' hf hown t ht

end

end Execution

section Exactness

variable {own : Frame → Option Label} {s : Machine} {r : Frame} {o : Option Nat}

/-- A walk for an address below a table of the tree comes through that table. -/
theorem leafOf_through (ht : Tables own s) (hr : own r = some ⟨o, 3, 0⟩) (hf : InTree s.mem r d f) :
    ∀ {o' : Option Nat} {k va : Nat}, own f = some ⟨o', d, k⟩ →
      part (d + 1) va = k → part (3 + 1) va = 0 ∧ leafOf s.mem 3 r va = leafOf s.mem d f va := by
  induction hf with
  | root =>
    intro o' k va hown hpart
    rw [hr] at hown
    cases hown
    exact ⟨hpart, rfl⟩
  | child hf hi hg ih =>
    intro o' k va hown hpart
    obtain ⟨o₁, k₁, hown₁⟩ := hf.label ht hr
    obtain ⟨o₂, hown₂, -⟩ := ht.child_of_target hown₁ hi hg
    rw [hown] at hown₂
    cases hown₂
    obtain ⟨hkey, hidx⟩ := (part_succ_eq_iff hi).2 hpart
    obtain ⟨htop, hleaf⟩ := ih hown₁ hkey
    refine ⟨htop, hleaf.trans ?_⟩
    rw [leafOf, hidx, hg]
    rfl

/-- Two entries at one address are one entry. -/
theorem entry_address_inj {j : Nat} (hi : i < 512) (hj : j < 512)
    (h : kva f + 8 * i = kva g + 8 * j) : f = g ∧ i = j := by
  have hfg : f = g := by
    by_contra hne
    rcases kva_disjoint hne with h' | h' <;> omega
  subst hfg
  exact ⟨rfl, by omega⟩

/-- Page-aligned addresses with the same leaf entry are equal. -/
theorem address_unique (ht : Tables own s) (hr : own r = some ⟨o, 3, 0⟩) (hal : va % 4096 = 0)
    (hal' : va' % 4096 = 0) (hkey : part (3 + 1) va = 0) (hkey' : part (3 + 1) va' = 0) {g' : Frame}
    (hg : leafOf s.mem 3 r va = some g) (hg' : leafOf s.mem 3 r va' = some g')
    (h : kva g' + 8 * indexAt 0 va' = kva g + 8 * indexAt 0 va) : va' = va := by
  obtain ⟨rfl, hidx⟩ := entry_address_inj (indexAt_lt 0 va') (indexAt_lt 0 va) h
  obtain ⟨o₁, hl, -⟩ := ht.leafOf_label (by omega) (by rw [hkey]; exact hr) hg
  obtain ⟨o₂, hl', -⟩ := ht.leafOf_label (by omega) (by rw [hkey']; exact hr) hg'
  rw [hl] at hl'
  simp only [Option.some.injEq, Label.mk.injEq, true_and] at hl'
  have hpage : part 0 va' = part 0 va := by rw [part_eq 0 va', part_eq 0 va, ← hl'.2, hidx]
  change va' / 4096 = va / 4096 at hpage
  omega

theorem key_eq_zero_iff : part (3 + 1) va = 0 ↔ va < 2 ^ 48 := by
  have h : part (3 + 1) va = va / 2 ^ 48 := rfl
  omega

section

variable (ht : Tables own s) (hr : own r = some ⟨o, 3, 0⟩)
include ht hr

/-- The entries of the list are the present entries of the leaf tables. -/
theorem mem_map_leavesFrom_iff (pte : Nat) :
    pte ∈ (leavesFrom s.mem 3 r 0).map Prod.fst ↔ ∃ g i, InTree s.mem r 0 g ∧ i < 512 ∧
      pte = kva g + 8 * i ∧ entry s.mem g i &&& pteP ≠ 0 := by
  rw [mem_map]
  constructor
  · rintro ⟨⟨pte, va⟩, hmem, rfl⟩
    obtain ⟨-, -, g, hleaf, hpte, hp⟩ := (mem_leavesFrom_iff s.mem 3 r 0 _ va).1 hmem
    refine ⟨g, indexAt 0 va, inTree_of_leafOf InTree.root hleaf, indexAt_lt 0 va, hpte, ?_⟩
    rw [and_pteP, hp]
    decide
  · rintro ⟨g, i, hg, hi, rfl, hp⟩
    obtain ⟨o', k, hown⟩ := hg.label ht hr
    -- the address of the entry is its page's number, from the label of the table
    obtain ⟨hal, hpart⟩ := part_zero_eq_iff.2 (rfl : 4096 * (512 * k + i) = _)
    obtain ⟨hkey, hidx⟩ := (part_succ_eq_iff hi).2 hpart
    obtain ⟨htop, hleaf⟩ := leafOf_through ht hr hg hown hkey
    refine ⟨(kva g + 8 * i, 4096 * (512 * k + i)), ?_, rfl⟩
    refine (mem_leavesFrom_iff s.mem 3 r 0 _ _).2 ⟨hal, htop, g, hleaf, by rw [hidx], ?_⟩
    rw [and_pteP] at hp
    rw [hidx]
    omega

/-- The address in the list is the one whose walk finds the entry. -/
theorem walk_iff_of_mem {pte : Nat} (hmem : (pte, va) ∈ leavesFrom s.mem 3 r 0) (va' : Nat) :
    va' % 4096 = 0 ∧ va' < 2 ^ 48 ∧
      result (pml4eWalk (kva r) va' false) s = .ok (some pte) ↔ va' = va := by
  obtain ⟨hal, hkey, g, hleaf, rfl, -⟩ := (mem_leavesFrom_iff s.mem 3 r 0 _ va).1 hmem
  have hlt : va < 2 ^ 48 := key_eq_zero_iff.1 hkey
  rw [result_pml4eWalk ht hr]
  constructor
  · rintro ⟨hal', hlt', hwalk⟩
    rw [Nat.mod_eq_of_lt hlt', Except.ok.injEq] at hwalk
    obtain ⟨g', hleaf', heq⟩ := Option.map_eq_some_iff.1 hwalk
    exact address_unique ht hr hal hal' hkey (key_eq_zero_iff.2 hlt') hleaf hleaf' heq
  · rintro rfl
    refine ⟨hal, hlt, ?_⟩
    rw [Nat.mod_eq_of_lt hlt, hleaf]
    rfl

/-- No entry is listed twice. -/
theorem nodup_map_leavesFrom :
    ((leavesFrom s.mem 3 r 0).map Prod.fst).Nodup := by
  rw [List.Nodup, pairwise_map]
  refine (pairwise_leavesFrom s.mem 3 r 0).imp_of_mem ?_
  rintro ⟨pte, va⟩ ⟨pte', va'⟩ hp hq hlt heq
  subst heq
  -- one entry has one address
  have hself := (walk_iff_of_mem ht hr hq va').2 rfl
  have hva := (walk_iff_of_mem ht hr hp va').1 hself
  omega

end

end Exactness

/-- The traversal of the page map at `r` is the calls of the callback for the entries of `l`, until
the first answer no: the present leaf entries, each once, in the order of their addresses, and each
with the one page-aligned address below `2 ^ 48` for which `pml4e_walk` finds it. -/
structure Visited (s : Machine) (r : Frame) (func : Nat → Nat → KernelM Bool)
    (l : List (Nat × Nat)) : Prop where
  calls : pml4ForEach func (kva r) s = callEach func l s
  ordered : l.Pairwise fun a b => a.2 < b.2
  once : (l.map Prod.fst).Nodup
  entries : ∀ pte, pte ∈ l.map Prod.fst ↔ ∃ g i, InTree s.mem r 0 g ∧ i < 512 ∧
    pte = kva g + 8 * i ∧ entry s.mem g i &&& pteP ≠ 0
  address : ∀ pte va, (pte, va) ∈ l → ∀ va', va' % 4096 = 0 ∧ va' < 2 ^ 48 ∧
    result (pml4eWalk (kva r) va' false) s = .ok (some pte) ↔ va' = va

/-- `pml4_for_each` on a well-formed page map visits the present leaf entries, for every callback
whose calls keep an invariant under which the same entries are present. -/
theorem pml4ForEach_exact {s : Machine} {r : Frame} (hmap : PageMapAt s r)
    (func : Nat → Nat → KernelM Bool) (I : Machine → Prop) (hfunc : KeepsShape s r func I) :
    ∃ l, Visited s r func l := by
  obtain ⟨own, ht, hr⟩ := hmap
  exact ⟨leavesFrom s.mem 3 r 0, pml4ForEach_eq hfunc ht hr, pairwise_leavesFrom s.mem 3 r 0,
    nodup_map_leavesFrom ht hr, mem_map_leavesFrom_iff ht hr,
    fun pte va hmem => walk_iff_of_mem ht hr hmem⟩

/-- A callback that takes a zeroed page for each entry, as long as there are pages. -/
def takePage (_pte _va : Nat) : KernelM Bool := do
  let page ← pallocGetPage { zero := true }
  return page.isSome

/-- The pages in use in `s` are in use and as they were. -/
def PagesKept (s t : Machine) : Prop :=
  ∀ f, s.used f = true → t.used f = true ∧ SamePage s.mem t.mem f

theorem takePage_keepsShape (hmap : PageMapAt s r) : KeepsShape s r takePage (PagesKept s) := by
  obtain ⟨own, htab, hr⟩ := hmap
  refine ⟨fun f hf => ⟨hf, SamePage.refl s.mem f⟩, fun t ht d f hf i hi => ?_,
    fun pte va t _ ht => ?_⟩
  · obtain ⟨o, k, hown⟩ := hf.label htab hr
    have hsame := (ht f (htab.used f _ hown).1).2.entry hi
    split_ifs
    · rw [hsame]
    · exact hsame
  · apply wlp_of_wp
    rw [takePage, wp_bind]
    refine wp_pallocGetPage rfl (fun g _ hfree => ?_) ((wp_pure _ _ _).2 ht)
    rw [wp_pure]
    intro f hf
    -- the page was free, so it is none of these
    have hfg : f ≠ g := ne_of_used (ht f hf).1 hfree
    exact ⟨(Function.update_of_ne hfg ..).trans (ht f hf).1,
      (ht f hf).2.trans (samePage_page (c := fun _ => 0) hfg)⟩

/-- A page for each entry of a map, in a kernel with two maps. -/
theorem pml4ForEach_exact_twoMaps : ∃ l, Visited Isolation.twoMaps.machine firstMap takePage l := by
  have hmap : PageMapAt Isolation.twoMaps.machine firstMap :=
    MapRefinement.pageMapAt_of_run Isolation.booted_eq Isolation.twoMaps_eq (by decide +kernel)
  exact pml4ForEach_exact hmap takePage _ (takePage_keepsShape hmap)

end Pintos.Threads.Traversal
