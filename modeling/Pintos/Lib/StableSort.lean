import Mathlib.Data.List.Sort
import Mathlib.Data.List.SplitBy
import Mathlib.Order.Defs.Unbundled

/-!
# Stable sorting by a strict weak order

A comparison function `less` that is a strict weak order groups elements into classes of equivalent
ones. A stable sort of a list is a permutation in nondecreasing order in which the members of each
class are in the same order as before. There is only one (`StableSortOf.unique`), so two algorithms
that sort stably agree. Merging sorted lists and inserting into a sorted list are stable
(`filter_merge`, `filter_orderedInsert`), removing the neighbours that are equivalent keeps the
first of each class (`mem_dedupFrom_iff`), and merging adjacent runs of a list in pairs halves their
number (`length_mergePairs`, `length_runs_flatten_le`).
-/

set_option autoImplicit false

namespace Pintos.Lib.StableSort

open List

variable {α : Type} {l l' : List α} {ls : List (List α)}

/-- The comparison function is a strict weak order. -/
abbrev StrictWeak (less : α → α → Bool) : Prop := IsStrictWeakOrder α fun a b => less a b = true

/-- Neither element is less than the other. -/
def equivBy (less : α → α → Bool) (a b : α) : Bool := !less a b && !less b a

/-- The second element is not less than the first. -/
def leBy (less : α → α → Bool) (a b : α) : Bool := !less b a

/-- The list is in nondecreasing order. -/
def SortedBy (less : α → α → Bool) (l : List α) : Prop := l.Pairwise fun a b => leBy less a b = true

/-- `l'` has the elements of `l` in nondecreasing order, equivalent ones in the order of `l`. -/
structure StableSortOf (less : α → α → Bool) (l l' : List α) : Prop where
  perm : l'.Perm l
  sorted : SortedBy less l'
  stable : ∀ a, l'.filter (equivBy less a) = l.filter (equivBy less a)

/-- The maximal nondecreasing runs of a list. -/
def runs (less : α → α → Bool) (l : List α) : List (List α) := l.splitBy (leBy less)

/-- Of the elements after `a`, those that are not equivalent to the last one before them that is
kept, and the others. -/
def dedupFrom (less : α → α → Bool) : α → List α → List α × List α
  | _, [] => ([], [])
  | a, b :: l =>
    if equivBy less a b then
      ((dedupFrom less a l).1, b :: (dedupFrom less a l).2)
    else
      (b :: (dedupFrom less b l).1, (dedupFrom less b l).2)

/-- The better one of two elements; the first if neither is. -/
def choose (better : α → α → Bool) (a b : α) : α := if better b a then b else a

/-- `x` is better than all elements before it, and no element after it is better. -/
def FirstBest (better : α → α → Bool) (l : List α) (x : α) : Prop :=
  ∃ us vs, l = us ++ x :: vs ∧ (∀ y ∈ us, better x y = true) ∧ ∀ y ∈ vs, better y x = false

/-- Adjacent lists are merged in pairs. -/
def mergePairs (less : α → α → Bool) : List (List α) → List (List α)
  | [] => []
  | [a] => [a]
  | a :: b :: ls => a.merge b (leBy less) :: mergePairs less ls

section Order

variable {less : α → α → Bool} [hless : StrictWeak less] {a b c : α}

omit hless in
theorem leBy_iff : leBy less a b = true ↔ less b a = false := by rw [leBy, Bool.not_eq_true']

omit hless in
theorem equivBy_iff : equivBy less a b = true ↔ less a b = false ∧ less b a = false := by
  rw [equivBy, Bool.and_eq_true, Bool.not_eq_true', Bool.not_eq_true']

theorem less_irrefl (a : α) : less a a = false := Bool.eq_false_iff.2 (hless.irrefl a)

theorem less_trans (hab : less a b = true) (hbc : less b c = true) : less a c = true :=
  hless.trans a b c hab hbc

theorem less_asymm (hab : less a b = true) : less b a = false := by
  refine Bool.eq_false_iff.2 fun hba => ?_
  exact hless.irrefl a (hless.trans a b a hab hba)

/-- What is not less than `b` is not less than something less than `b`. -/
theorem less_of_less_of_le (hab : less a b = true) (hbc : less c b = false) : less a c = true := by
  by_contra hac
  have hac' : less a c = false := Bool.eq_false_iff.2 hac
  cases hbc' : less b c with
  | true => exact hac (less_trans hab hbc')
  | false =>
    cases hca : less c a with
    | true =>
      have hcb := less_trans hca hab
      rw [hbc] at hcb
      cases hcb
    | false =>
      -- `a` and `c`, and `c` and `b`, are equivalent, so `a` and `b` would be
      have hequiv := hless.incomp_trans a c b
        ⟨Bool.eq_false_iff.1 hac', Bool.eq_false_iff.1 hca⟩
        ⟨Bool.eq_false_iff.1 hbc, Bool.eq_false_iff.1 hbc'⟩
      exact hequiv.1 hab

theorem leBy_trans (hab : leBy less a b = true) (hbc : leBy less b c = true) :
    leBy less a c = true := by
  rw [leBy_iff] at hab hbc ⊢
  refine Bool.eq_false_iff.2 fun hca => ?_
  have hcb := less_of_less_of_le hca hab
  rw [hbc] at hcb
  cases hcb

theorem leBy_total (a b : α) : (leBy less a b || leBy less b a) = true := by
  cases hab : leBy less a b with
  | true => rfl
  | false =>
    rw [leBy, Bool.not_eq_false'] at hab
    rw [Bool.false_or, leBy_iff]
    exact less_asymm hab

theorem equivBy_self (a : α) : equivBy less a a = true :=
  equivBy_iff.2 ⟨less_irrefl a, less_irrefl a⟩

omit hless in
theorem equivBy_symm (h : equivBy less a b = true) : equivBy less b a = true :=
  equivBy_iff.2 (equivBy_iff.1 h).symm

/-- Elements of one class are equivalent. -/
theorem equivBy_of_class {x : α} (ha : equivBy less x a = true) (hb : equivBy less x b = true) :
    equivBy less a b = true := by
  rw [equivBy_iff] at ha hb ⊢
  have hle₁ : leBy less a b = true := leBy_trans (b := x) (leBy_iff.2 ha.1) (leBy_iff.2 hb.2)
  have hle₂ : leBy less b a = true := leBy_trans (b := x) (leBy_iff.2 hb.1) (leBy_iff.2 ha.2)
  exact ⟨leBy_iff.1 hle₂, leBy_iff.1 hle₁⟩

/-- A list whose neighbours are in order is sorted. -/
theorem sortedBy_of_isChain (h : l.IsChain fun a b => leBy less a b = true) :
    SortedBy less l := by
  have : Trans (fun a b => leBy less a b = true) (fun a b => leBy less a b = true)
      (fun a b => leBy less a b = true) := ⟨leBy_trans⟩
  exact h.pairwise

end Order

/-! ## There is one stable sort -/

section Unique

variable {less : α → α → Bool} [hless : StrictWeak less]

/-- Two sorted lists with the same classes, in the same order, are equal. -/
theorem eq_of_sorted (hl : SortedBy less l) (hl' : SortedBy less l')
    (h : ∀ a, l.filter (equivBy less a) = l'.filter (equivBy less a)) : l = l' := by
  induction l generalizing l' with
  | nil =>
    cases l' with
    | nil => rfl
    | cons b t' =>
      have hb := h b
      rw [filter_cons_of_pos (equivBy_self b)] at hb
      cases hb
  | cons a t ih =>
    have hclass := h a
    rw [filter_cons_of_pos (equivBy_self a)] at hclass
    cases l' with
    | nil => cases hclass
    | cons b t' =>
      -- each of the two first elements is in the other list, so neither is less
      have hle : ∀ {x y : α} {s s' : List α}, SortedBy less (x :: s) → SortedBy less (y :: s') →
          (∀ c, (x :: s).filter (equivBy less c) = (y :: s').filter (equivBy less c)) →
          less x y = false := by
        intro x y s s' _ hs' hsame
        have hmem : x ∈ (y :: s').filter (equivBy less x) := by
          rw [← hsame x, filter_cons_of_pos (equivBy_self x)]
          exact mem_cons_self
        rcases mem_cons.1 (mem_filter.1 hmem).1 with rfl | hx
        · exact less_irrefl x
        · exact leBy_iff.1 (rel_of_pairwise_cons hs' hx)
      have hequiv : equivBy less a b = true :=
        equivBy_iff.2 ⟨hle hl hl' h, hle hl' hl fun c => (h c).symm⟩
      rw [filter_cons_of_pos hequiv] at hclass
      obtain rfl := (List.cons.inj hclass).1
      refine congrArg _ (ih (pairwise_cons.1 hl).2 (pairwise_cons.1 hl').2 fun c => ?_)
      have hc := h c
      rw [filter_cons, filter_cons] at hc
      split at hc
      · exact (List.cons.inj hc).2
      · exact hc

/-- Two stable sorts of the same list are the same. -/
theorem StableSortOf.unique {l₁ l₂ : List α} (h₁ : StableSortOf less l l₁)
    (h₂ : StableSortOf less l l₂) :
    l₁ = l₂ :=
  eq_of_sorted h₁.sorted h₂.sorted fun a => (h₁.stable a).trans (h₂.stable a).symm

end Unique

/-! ## Merging -/

section Merge

variable {less : α → α → Bool} [hless : StrictWeak less]

/-- Merging keeps the order in each class: those of the first list come first. -/
theorem filter_merge (x : α) (hl : SortedBy less l) :
    (l.merge l' (leBy less)).filter (equivBy less x) =
      l.filter (equivBy less x) ++ l'.filter (equivBy less x) := by
  induction l generalizing l' with
  | nil => rw [nil_merge, filter_nil, nil_append]
  | cons a l ihl =>
    induction l' with
    | nil => rw [merge_right, filter_nil, append_nil]
    | cons b l' ihl' =>
      rw [cons_merge_cons]
      split
      · simp only [filter_cons, ihl (pairwise_cons.1 hl).2]
        split <;> rfl
      · rename_i hgreater
        have hba : less b a = true := by
          rwa [leBy, Bool.not_eq_true', Bool.not_eq_false] at hgreater
        rw [filter_cons (x := b), ihl', filter_cons (x := b)]
        split
        · rename_i hb
          -- everything in the first list is greater than `b`, and not in its class
          have hnone : (a :: l).filter (equivBy less x) = [] := by
            rw [filter_eq_nil_iff]
            intro c hc hclass
            have hbc : less b c = true := by
              rcases mem_cons.1 hc with rfl | hc
              · exact hba
              · exact less_of_less_of_le hba (leBy_iff.1 (rel_of_pairwise_cons hl hc))
            rw [(equivBy_iff.1 (equivBy_of_class hb hclass)).1] at hbc
            cases hbc
          rw [hnone]
          rfl
        · rfl

/-- Merging two sorted lists is a stable sort of both. -/
theorem stableSort_merge (hl : SortedBy less l) (hl' : SortedBy less l') :
    StableSortOf less (l ++ l') (l.merge l' (leBy less)) where
  perm := merge_perm_append _
  sorted := pairwise_merge (fun _ _ _ => leBy_trans) leBy_total _ _ hl hl'
  stable := fun x => by rw [filter_merge x hl, filter_append]

/-- Merging sorted lists in pairs gives sorted lists. -/
theorem sortedBy_mergePairs (h : ∀ l ∈ ls, SortedBy less l) :
    ∀ l ∈ mergePairs less ls, SortedBy less l := by
  induction ls using mergePairs.induct with
  | case1 => exact h
  | case2 a => exact h
  | case3 a b ls ih =>
    obtain ⟨ha, hrest⟩ := forall_mem_cons.1 h
    obtain ⟨hb, hls⟩ := forall_mem_cons.1 hrest
    exact forall_mem_cons.2 ⟨(stableSort_merge ha hb).sorted, ih hls⟩

/-- Merging sorted lists in pairs keeps the elements and the order in each class. -/
theorem flatten_mergePairs (h : ∀ l ∈ ls, SortedBy less l) :
    (mergePairs less ls).flatten.Perm ls.flatten ∧
      ∀ x, (mergePairs less ls).flatten.filter (equivBy less x) =
        ls.flatten.filter (equivBy less x) := by
  induction ls using mergePairs.induct with
  | case1 => exact ⟨List.Perm.refl _, fun _ => rfl⟩
  | case2 a => exact ⟨List.Perm.refl _, fun _ => rfl⟩
  | case3 a b ls ih =>
    obtain ⟨ha, hrest⟩ := forall_mem_cons.1 h
    obtain ⟨hb, hls⟩ := forall_mem_cons.1 hrest
    obtain ⟨hperm, hstable⟩ := ih hls
    have hmerge := stableSort_merge ha hb
    constructor
    · rw [mergePairs, flatten_cons, flatten_cons, flatten_cons, ← append_assoc]
      exact hmerge.perm.append hperm
    · intro x
      rw [mergePairs, flatten_cons, flatten_cons, flatten_cons, ← append_assoc,
        filter_append, filter_append, hmerge.stable x, hstable x]

theorem length_mergePairs (less : α → α → Bool) (ls : List (List α)) :
    (mergePairs less ls).length = (ls.length + 1) / 2 := by
  induction ls using mergePairs.induct with
  | case1 => rw [mergePairs, length_nil]
  | case2 a => rw [mergePairs, length_singleton]
  | case3 a b ls ih =>
    rw [mergePairs, length_cons, ih, length_cons, length_cons]
    omega

end Merge

/-! ## Runs -/

section Runs

variable {less : α → α → Bool}

theorem flatten_runs (less : α → α → Bool) (l : List α) : (runs less l).flatten = l :=
  flatten_splitBy _ l

theorem sortedBy_of_mem_runs [StrictWeak less] {m : List α} (h : m ∈ runs less l) :
    SortedBy less m :=
  sortedBy_of_isChain (isChain_of_mem_splitBy h)

/-- A run in front adds one run at most. -/
theorem length_runs_append_le {m : List α} (hl : l.IsChain fun a b => leBy less a b = true) :
    (runs less (l ++ m)).length ≤ (runs less m).length + 1 := by
  cases l with
  | nil => exact Nat.le_succ _
  | cons a l =>
    cases hruns : runs less m with
    | nil =>
      obtain rfl : m = [] := splitBy_eq_nil.1 hruns
      rw [append_nil, runs, splitBy_of_isChain (cons_ne_nil a l) hl]
      exact le_refl _
    | cons b ls =>
      obtain ⟨hm, hnil, hchain, hbreak⟩ := splitBy_eq_iff.1 hruns
      have hb : b ≠ [] := fun e => hnil (e ▸ mem_cons_self)
      by_cases hjoin : leBy less ((a :: l).getLast (cons_ne_nil a l)) (b.head hb) = true
      · -- the run in front and the first one are one
        have hwhole : runs less (a :: l ++ m) = ((a :: l) ++ b) :: ls := by
          refine splitBy_eq_iff.2 ⟨?_, ?_, ?_, ?_⟩
          · rw [hm, flatten_cons, flatten_cons, append_assoc]
          · intro hmem
            rcases mem_cons.1 hmem with he | hmem
            · cases he
            · exact hnil (mem_cons_of_mem _ hmem)
          · refine forall_mem_cons.2 ⟨?_, (forall_mem_cons.1 hchain).2⟩
            refine isChain_append.2 ⟨hl, (forall_mem_cons.1 hchain).1, ?_⟩
            intro x hx y hy
            rw [List.getLast?_eq_getLast_of_ne_nil (cons_ne_nil a l), Option.mem_some_iff] at hx
            rw [List.head?_eq_some_head hb, Option.mem_some_iff] at hy
            rw [← hx, ← hy]
            exact hjoin
          · cases ls with
            | nil => exact isChain_singleton _
            | cons c ls =>
              obtain ⟨hbc, hrest⟩ := isChain_cons_cons.1 hbreak
              refine isChain_cons_cons.2 ⟨?_, hrest⟩
              obtain ⟨_, hc, hlt⟩ := hbc
              refine ⟨append_ne_nil_of_right_ne_nil _ hb, hc, ?_⟩
              rwa [getLast_append_of_ne_nil _ hb]
        rw [hwhole, length_cons, length_cons]
        exact Nat.le_succ _
      · have hwhole : runs less (a :: l ++ m) = (a :: l) :: b :: ls := by
          refine splitBy_eq_iff.2 ⟨?_, ?_, ?_, ?_⟩
          · rw [hm]
            rfl
          · exact fun hmem => hnil (mem_of_ne_of_mem (cons_ne_nil a l).symm hmem)
          · exact forall_mem_cons.2 ⟨hl, hchain⟩
          · refine isChain_cons_cons.2 ⟨⟨cons_ne_nil a l, hb, ?_⟩, hbreak⟩
            exact Bool.eq_false_iff.2 hjoin
        rw [hwhole]
        exact le_refl _

/-- A concatenation of sorted lists has no more runs than there are lists. -/
theorem length_runs_flatten_le (h : ∀ l ∈ ls, SortedBy less l) :
    (runs less ls.flatten).length ≤ ls.length := by
  induction ls with
  | nil => exact le_refl _
  | cons l ls ih =>
    obtain ⟨hl, hls⟩ := forall_mem_cons.1 h
    exact (length_runs_append_le hl.isChain).trans (Nat.succ_le_succ (ih hls))

/-- A list with one run at most is sorted. -/
theorem sortedBy_of_length_runs [StrictWeak less] (h : (runs less l).length ≤ 1) :
    SortedBy less l := by
  have hflat := flatten_runs less l
  cases hruns : runs less l with
  | nil =>
    rw [hruns] at hflat
    rw [← hflat]
    exact List.Pairwise.nil
  | cons m ls =>
    rw [hruns, length_cons] at h
    obtain rfl : ls = [] := length_eq_zero_iff.1 (Nat.le_zero.1 (Nat.succ_le_succ_iff.1 h))
    rw [hruns, flatten_singleton] at hflat
    rw [← hflat]
    exact sortedBy_of_mem_runs (hruns ▸ mem_cons_self)

theorem length_runs_le (less : α → α → Bool) (l : List α) : (runs less l).length ≤ l.length := by
  have hle : ∀ ls : List (List α), [] ∉ ls → ls.length ≤ ls.flatten.length := by
    intro ls hnil
    induction ls with
    | nil => exact le_refl _
    | cons m ls ih =>
      have hm : 0 < m.length := length_pos_iff.2 fun e => hnil (e ▸ mem_cons_self)
      have hls := ih fun hmem => hnil (mem_cons_of_mem _ hmem)
      rw [length_cons, flatten_cons, length_append]
      omega
  have hruns := hle (runs less l) (nil_notMem_splitBy _ l)
  rwa [flatten_runs] at hruns

end Runs

/-! ## Insertion -/

section Insert

variable {less : α → α → Bool} [hless : StrictWeak less]

/-- Insertion before the first greater element puts the new one last in its class. -/
theorem filter_orderedInsert (x a : α) (hl : SortedBy less l) :
    (l.orderedInsert (fun b c => less b c = true) a).filter (equivBy less x) =
      l.filter (equivBy less x) ++ [a].filter (equivBy less x) := by
  induction l with
  | nil => rfl
  | cons b l ih =>
    rw [orderedInsert_cons]
    split
    · rename_i hab
      rw [filter_cons (x := a), filter_cons (x := a)]
      split
      · rename_i ha
        -- the elements that follow are greater than `a`
        have hnone : (b :: l).filter (equivBy less x) = [] := by
          rw [filter_eq_nil_iff]
          intro c hc hclass
          have hac : less a c = true := by
            rcases mem_cons.1 hc with rfl | hc
            · exact hab
            · exact less_of_less_of_le hab (leBy_iff.1 (rel_of_pairwise_cons hl hc))
          rw [(equivBy_iff.1 (equivBy_of_class ha hclass)).1] at hac
          cases hac
        rw [hnone]
        rfl
      · rw [filter_nil, append_nil]
    · rw [filter_cons (x := b), ih (pairwise_cons.1 hl).2, filter_cons (x := b)]
      split <;> rfl

theorem sortedBy_orderedInsert (a : α) (hl : SortedBy less l) :
    SortedBy less (l.orderedInsert (fun b c => less b c = true) a) := by
  induction l with
  | nil => exact pairwise_singleton _ a
  | cons b l ih =>
    rw [orderedInsert_cons]
    split
    · rename_i hab
      refine pairwise_cons.2 ⟨?_, hl⟩
      intro c hc
      rw [leBy_iff]
      rcases mem_cons.1 hc with rfl | hc
      · exact less_asymm hab
      · exact less_asymm (less_of_less_of_le hab (leBy_iff.1 (rel_of_pairwise_cons hl hc)))
    · rename_i hab
      refine pairwise_cons.2 ⟨?_, ih (pairwise_cons.1 hl).2⟩
      intro c hc
      rcases (mem_orderedInsert _).1 hc with rfl | hc
      · exact leBy_iff.2 (Bool.eq_false_iff.2 hab)
      · exact rel_of_pairwise_cons hl hc

/-- Insertion into a stable sort is a stable sort of the list with the new element at the end. -/
theorem StableSortOf.orderedInsert (h : StableSortOf less l l') (a : α) :
    StableSortOf less (l ++ [a]) (l'.orderedInsert (fun b c => less b c = true) a) where
  perm := ((perm_orderedInsert _ a l').trans (h.perm.cons a)).trans (perm_append_singleton a l).symm
  sorted := sortedBy_orderedInsert a h.sorted
  stable := fun x => by rw [filter_orderedInsert x a h.sorted, h.stable x, filter_append]

end Insert

/-! ## The first of each class -/

section Dedup

variable {less : α → α → Bool} [hless : StrictWeak less] {a : α} {l : List α}

omit hless in
theorem dedupFrom_sublist (less : α → α → Bool) (a : α) (l : List α) :
    (dedupFrom less a l).1.Sublist l := by
  induction l generalizing a with
  | nil => exact List.Sublist.refl _
  | cons b l ih =>
    rw [dedupFrom]
    split
    · exact (ih a).cons b
    · exact (ih b).cons_cons b

/-- What is kept of a sorted list is strictly increasing. -/
theorem pairwise_dedupFrom (h : SortedBy less (a :: l)) :
    (a :: (dedupFrom less a l).1).Pairwise fun x y => less x y = true := by
  induction l generalizing a with
  | nil => exact pairwise_singleton _ a
  | cons b l ih =>
    obtain ⟨ha, hbl⟩ := pairwise_cons.1 h
    rw [dedupFrom]
    split
    · exact ih (pairwise_cons.2 ⟨fun c hc => ha c (mem_cons_of_mem _ hc),
        (pairwise_cons.1 hbl).2⟩)
    · rename_i hne
      have hba := leBy_iff.1 (ha b mem_cons_self)
      have hab : less a b = true := by
        by_contra hab
        exact hne (equivBy_iff.2 ⟨Bool.eq_false_iff.2 hab, hba⟩)
      refine pairwise_cons.2 ⟨?_, ih hbl⟩
      intro c hc
      rcases mem_cons.1 hc with rfl | hc
      · exact hab
      · have hmem := (dedupFrom_sublist less b l).subset hc
        exact less_of_less_of_le hab (leBy_iff.1 (rel_of_pairwise_cons hbl hmem))

/-- What is kept of a sorted list is the first of each class. -/
theorem mem_dedupFrom_iff (h : SortedBy less (a :: l)) (x : α) :
    x ∈ a :: (dedupFrom less a l).1 ↔ (a :: l).find? (equivBy less x) = some x := by
  induction l generalizing a with
  | nil =>
    constructor
    · intro hx
      obtain rfl := mem_singleton.1 hx
      exact List.find?_cons_of_pos (equivBy_self x)
    · exact mem_of_find?_eq_some
  | cons b l ih =>
    obtain ⟨ha, hbl⟩ := pairwise_cons.1 h
    rw [dedupFrom]
    split
    · rename_i hab
      rw [ih (pairwise_cons.2 ⟨fun c hc => ha c (mem_cons_of_mem _ hc),
        (pairwise_cons.1 hbl).2⟩)]
      -- `b` is in the class of `a`, so it is never the first of its class
      cases hxa : equivBy less x a with
      | true => rw [List.find?_cons_of_pos hxa, List.find?_cons_of_pos hxa]
      | false =>
        have hxb : ¬ equivBy less x b = true := by
          intro hxb
          have hax : equivBy less a x = true := equivBy_of_class (x := b)
            (equivBy_symm hab) (equivBy_symm hxb)
          rw [equivBy_symm hax] at hxa
          cases hxa
        have hxa' : ¬ equivBy less x a = true := Bool.eq_false_iff.1 hxa
        rw [List.find?_cons_of_neg hxa', List.find?_cons_of_neg hxa', List.find?_cons_of_neg hxb]
    · rename_i hab
      rw [mem_cons, ih hbl]
      cases hxa : equivBy less x a with
      | true =>
        rw [List.find?_cons_of_pos hxa]
        constructor
        · rintro (rfl | hfind)
          · rfl
          · -- the elements after `a` are all greater
            have hmem := mem_of_find?_eq_some hfind
            have hba := leBy_iff.1 (ha b mem_cons_self)
            have hab' : less a b = true := by
              by_contra hlt
              exact hab (equivBy_iff.2 ⟨Bool.eq_false_iff.2 hlt, hba⟩)
            have hax : less a x = true := by
              rcases mem_cons.1 hmem with rfl | hmem
              · exact hab'
              · exact less_of_less_of_le hab' (leBy_iff.1 (rel_of_pairwise_cons hbl hmem))
            rw [(equivBy_iff.1 hxa).2] at hax
            cases hax
        · intro heq
          exact Or.inl (Option.some.inj heq).symm
      | false =>
        have hxa' : ¬ equivBy less x a = true := Bool.eq_false_iff.1 hxa
        rw [List.find?_cons_of_neg hxa']
        refine or_iff_right ?_
        rintro rfl
        exact hxa' (equivBy_self x)

omit hless in
/-- What is not kept, in order. -/
theorem dedupFrom_snd [DecidableEq α] (hnd : (a :: l).Nodup) :
    (dedupFrom less a l).2 = (a :: l).filter (· ∉ a :: (dedupFrom less a l).1) := by
  induction l generalizing a with
  | nil => simp [dedupFrom]
  | cons b l ih =>
    obtain ⟨ha, hbl⟩ := nodup_cons.1 hnd
    obtain ⟨hb, hl⟩ := nodup_cons.1 hbl
    have hskip : ∀ (c : α) (ls m : List α),
        (c :: m).filter (· ∉ c :: ls) = m.filter (· ∉ c :: ls) := by
      intro c ls m
      exact filter_cons_of_neg (by simp)
    rw [dedupFrom]
    split
    · have hal : (a :: l).Nodup := nodup_cons.2 ⟨fun hmem => ha (mem_cons_of_mem _ hmem), hl⟩
      have hout : decide (b ∉ a :: (dedupFrom less a l).1) = true := by
        refine decide_eq_true fun hmem => ?_
        rcases mem_cons.1 hmem with rfl | hmem
        · exact ha mem_cons_self
        · exact hb ((dedupFrom_sublist less a l).subset hmem)
      have hrest := ih hal
      rw [hskip] at hrest ⊢
      rw [filter_cons_of_pos (p := (· ∉ a :: (dedupFrom less a l).1)) hout, hrest]
    · rw [hskip, ih hbl]
      apply filter_congr
      intro c hc
      have hca : c ≠ a := fun e => ha (e ▸ hc)
      simp only [mem_cons, hca, false_or]

end Dedup

/-! ## The first best element -/

section Best

variable {better : α → α → Bool} [hbetter : StrictWeak better]

/-- Going through a list and keeping the better element finds the first best one. -/
theorem firstBest_foldl (a : α) (l : List α) :
    FirstBest better (a :: l) (l.foldl (choose better) a) := by
  suffices hsplit : ∀ done b mid, (∀ y ∈ done, better b y = true) →
    (∀ y ∈ mid, better y b = false) →
      FirstBest better (done ++ b :: mid ++ l) (l.foldl (choose better) b) from
    hsplit [] a [] (fun _ hy => (by cases hy)) (fun _ hy => (by cases hy))
  induction l with
  | nil =>
    intro done b mid hdone hmid
    rw [append_nil]
    exact ⟨done, mid, rfl, hdone, hmid⟩
  | cons c l ih =>
    intro done b mid hdone hmid
    rw [foldl_cons, choose]
    split
    · rename_i hcb
      -- the new one is better than those that `b` was better than, and than those that were not
      -- better
      have hnext := ih (done ++ b :: mid) c [] ?_ (fun _ hy => (by cases hy))
      · rwa [append_assoc (done ++ b :: mid)] at hnext
      · intro y hy
        rcases mem_append.1 hy with hy | hy
        · exact less_trans hcb (hdone y hy)
        · rcases mem_cons.1 hy with rfl | hy
          · exact hcb
          · exact less_of_less_of_le hcb (hmid y hy)
    · rename_i hcb
      have hnext := ih done b (mid ++ [c]) hdone ?_
      · simpa only [append_assoc, cons_append, nil_append] using hnext
      · intro y hy
        rcases mem_append.1 hy with hy | hy
        · exact hmid y hy
        · obtain rfl := mem_singleton.1 hy
          exact Bool.eq_false_iff.2 hcb

end Best

end Pintos.Lib.StableSort
