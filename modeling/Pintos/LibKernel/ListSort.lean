import Pintos.Lib.StableSort
import Pintos.LibKernel.ListLaws

/-!
# Sorting lists

`list_sort` of `lib/kernel/list.c`: passes over the list that merge adjacent nondecreasing runs in
place, until one run is left. The heap functions do to the sequence of elements what `runs` and
`mergePairs` do to lists: `find_end_of_run` finds the next run, `inplace_merge` merges two, one pass
merges them all in pairs (`wp_runPass`). A pass that outputs more than one run has halved their
number, so the passes end (`wp_sortPasses`), and merging keeps equivalent elements in order.
-/

set_option autoImplicit false

namespace Pintos.LibKernel.ListSort

open Lib.StateExcept Lib.LinkedNodes Lib.StableSort
open LibKernel.List ListFamily ListLaws

variable {ν : Type} [DecidableEq ν] {x : ν}

/-! ## The code -/

/-- `less (p, q, aux)`. The function reads the structures that hold the two elements. -/
def lessAt (less : ν → ν → Bool) (p q : Option ν) : ListM ν Bool := do
  return less (← deref p) (← deref q)

/-- The loop of `is_sorted`. -/
def isSortedFrom (less : ν → ν → Bool) : Nat → Option ν → Option ν → ListM ν Bool
  | 0, _, _ => throw .endless
  | fuel + 1, a, b => do
    let a ← listNext a
    if a = b then return true
    if ← lessAt less a (← listPrev a) then return false
    isSortedFrom less fuel a b

/-- `is_sorted`. -/
def isSorted (less : ν → ν → Bool) (fuel : Nat) (a b : Option ν) : ListM ν Bool :=
  if a ≠ b then isSortedFrom less fuel a b else pure true

/-- The loop of `find_end_of_run`. -/
def findEndOfRunFrom (less : ν → ν → Bool) : Nat → Option ν → Option ν → ListM ν (Option ν)
  | 0, _, _ => throw .endless
  | fuel + 1, a, b => do
    let a ← listNext a
    if a = b then return a
    if ← lessAt less a (← listPrev a) then return a
    findEndOfRunFrom less fuel a b

/-- `find_end_of_run`. -/
def findEndOfRun (less : ν → ν → Bool) (fuel : Nat) (a b : Option ν) : ListM ν (Option ν) := do
  check (a ≠ none) .findEndOfRunA
  check (b ≠ none) .findEndOfRunB
  check (a ≠ b) .findEndOfRunNonempty
  findEndOfRunFrom less fuel a b

/-- The loop of `inplace_merge`. -/
def inplaceMergeFrom (less : ν → ν → Bool) : Nat → Option ν → Option ν → Option ν → ListM ν Unit
  | 0, _, _, _ => throw .endless
  | fuel + 1, a0, a1b0, b1 =>
    if a0 ≠ a1b0 ∧ a1b0 ≠ b1 then do
      if !(← lessAt less a1b0 a0) then
        inplaceMergeFrom less fuel (← listNext a0) a1b0 b1
      else
        let a1b0 ← listNext a1b0
        listSplice a0 (← listPrev a1b0) a1b0
        inplaceMergeFrom less fuel a0 a1b0 b1
    else
      return

/-- `inplace_merge`. -/
def inplaceMerge (less : ν → ν → Bool) (fuel : Nat) (a0 a1b0 b1 : Option ν) : ListM ν Unit := do
  check (a0 ≠ none) .inplaceMergeA0
  check (a1b0 ≠ none) .inplaceMergeA1b0
  check (b1 ≠ none) .inplaceMergeB1
  check ((← isSorted less fuel a0 a1b0) = true) .inplaceMergeFirstSorted
  check ((← isSorted less fuel a1b0 b1) = true) .inplaceMergeSecondSorted
  inplaceMergeFrom less fuel a0 a1b0 b1

/-- One pass of `list_sort` from `a0` on, which returns `output_run_cnt`. The inner loops may make
`bound` iterations. -/
def runPass (less : ν → ν → Bool) (list : KList ν) (bound : Nat) :
    Nat → Option ν → Nat → ListM ν Nat
  | 0, _, _ => throw .endless
  | fuel + 1, a0, outputRunCnt => do
    if a0 = listEnd list then return outputRunCnt
    let outputRunCnt := (outputRunCnt + 1) % 2 ^ 64
    let a1b0 ← findEndOfRun less bound a0 (listEnd list)
    if a1b0 = listEnd list then return outputRunCnt
    let b1 ← findEndOfRun less bound a1b0 (listEnd list)
    inplaceMerge less bound a0 a1b0 b1
    runPass less list bound fuel b1 outputRunCnt

/-- The passes of `list_sort`. -/
def sortPasses (less : ν → ν → Bool) (list : KList ν) (bound : Nat) : Nat → ListM ν Unit
  | 0 => throw .endless
  | fuel + 1 => do
    let outputRunCnt ← runPass less list bound bound (← listBegin list) 0
    if outputRunCnt > 1 then sortPasses less list bound fuel else return

/-- `list_sort`. -/
def listSort (less : ν → ν → Bool) (fuel : Nat) (list : KList ν) : ListM ν Unit := do
  sortPasses less list fuel fuel
  check ((← isSorted less fuel (← listBegin list) (listEnd list)) = true) .listSortSorted

/-! ## Runs -/

section Runs

variable {h : Heap ν} {F : Family ν} {l : KList ν} {us vs xs rng : List ν}
  {less : ν → ν → Bool} {fuel : Nat} {as bs : List ν}

omit [DecidableEq ν] in
theorem wp_lessAt (x y : ν) (Q : Bool → Heap ν → Prop) :
    wp (lessAt less (some x) (some y)) h Q ↔ Q (less x y) h := by
  rw [lessAt, wp_bind, wp_deref, wp_bind, wp_deref, wp_pure]

omit [DecidableEq ν] in
/-- The first element of a range is not the end of the range. -/
theorem first_ne_end (hl : IsList h l (us ++ (x :: rng ++ vs))) : x ≠ firstOf l vs := by
  rw [← List.append_assoc] at hl
  exact (range_ne hl.nodup x List.mem_cons_self).2

omit [DecidableEq ν] in
/-- A range with elements does not start at the end of the list. -/
theorem first_ne_listEnd (hne : rng ≠ []) (hl : IsList h l (us ++ (rng ++ vs))) :
    some (firstOf l (rng ++ vs)) ≠ listEnd l := by
  intro e
  obtain ⟨x, rng, rfl⟩ := List.exists_cons_of_ne_nil hne
  exact hl.ne_end e

omit [DecidableEq ν] in
/-- The links of the first two elements of a range. -/
theorem links_pair {y : ν} (hl : IsList h l (us ++ (x :: y :: vs))) :
    (h x).next = some y ∧ (h y).prev = some x := by
  have hprev := (links_elem hl.shift).1
  rw [lastOf_concat] at hprev
  exact ⟨(links_elem hl).2, hprev⟩

theorem wp_isSortedFrom (hl : IsList h l (us ++ (x :: rng ++ vs)))
    (hsorted : SortedBy less (x :: rng)) (hfuel : rng.length < fuel) (Q : Bool → Heap ν → Prop) :
    wp (isSortedFrom less fuel (some x) (some (firstOf l vs))) h Q ↔ Q true h := by
  induction rng generalizing us x fuel with
  | nil =>
    obtain _ | fuel := fuel
    · cases hfuel
    have hnext : (h x).next = some (firstOf l vs) := (links_elem hl).2
    rw [isSortedFrom, wp_bind, wp_listNext hnext, if_pos rfl, wp_pure]
  | cons y rng ih =>
    obtain _ | fuel := fuel
    · cases hfuel
    obtain ⟨hfirst, hrest⟩ := List.pairwise_cons.1 hsorted
    obtain ⟨hnext, hprev⟩ := links_pair hl
    have hl' : IsList h l ((us ++ [x]) ++ (y :: rng ++ vs)) := hl.shift
    have hne : y ≠ firstOf l vs := first_ne_end hl'
    have hle : less y x = false := leBy_iff.1 (hfirst y List.mem_cons_self)
    rw [isSortedFrom, wp_bind, wp_listNext hnext,
      if_neg (fun e => hne (Option.some.inj e)), wp_bind,
      wp_listPrev hprev, wp_bind, wp_lessAt, hle, if_neg Bool.false_ne_true]
    exact ih hl' hrest (Nat.lt_of_succ_lt_succ hfuel)

/-- `is_sorted` of a sorted range. -/
theorem wp_isSorted (hl : IsList h l (us ++ (rng ++ vs))) (hsorted : SortedBy less rng)
    (hfuel : rng.length < fuel) (Q : Bool → Heap ν → Prop) :
    wp (isSorted less fuel (some (firstOf l (rng ++ vs))) (some (firstOf l vs))) h Q ↔
      Q true h := by
  cases rng with
  | nil => rw [isSorted, List.nil_append, if_neg (not_not.2 rfl), wp_pure]
  | cons x rng =>
    rw [isSorted, List.cons_append, firstOf_cons,
      if_pos (fun e => first_ne_end hl (Option.some.inj e))]
    exact wp_isSortedFrom hl hsorted (Nat.lt_of_succ_lt hfuel) Q

/-- `find_end_of_run` up to the end of the list finds where the order is broken. -/
theorem wp_findEndOfRunFrom (hl : IsList h l (us ++ (x :: rng ++ vs)))
    (hchain : (x :: rng).IsChain fun a b => leBy less a b = true)
    (hbreak : ∀ y ∈ vs.head?, leBy less ((x :: rng).getLast (List.cons_ne_nil x rng)) y = false)
    (hfuel : rng.length < fuel) (Q : Option ν → Heap ν → Prop) :
    wp (findEndOfRunFrom less fuel (some x) (listEnd l)) h Q ↔ Q (some (firstOf l vs)) h := by
  induction rng generalizing us x fuel with
  | nil =>
    obtain _ | fuel := fuel
    · cases hfuel
    have hnext : (h x).next = some (firstOf l vs) := (links_elem hl).2
    rw [findEndOfRunFrom, wp_bind, wp_listNext hnext]
    cases vs with
    | nil => rw [firstOf_nil, listEnd, if_pos rfl, wp_pure]
    | cons y vs =>
      have hless : less y x = true := by
        have hnot := hbreak y rfl
        rwa [List.getLast_singleton, leBy, Bool.not_eq_false'] at hnot
      have hl' : IsList h l ((us ++ [x]) ++ y :: vs) := hl.shift
      rw [firstOf_cons, if_neg hl'.ne_end, wp_bind,
        wp_listPrev (links_pair hl).2, wp_bind, wp_lessAt, hless, if_pos rfl, wp_pure]
  | cons y rng ih =>
    obtain _ | fuel := fuel
    · cases hfuel
    obtain ⟨hle, hrest⟩ := List.isChain_cons_cons.1 hchain
    obtain ⟨hnext, hprev⟩ := links_pair hl
    have hl' : IsList h l ((us ++ [x]) ++ (y :: rng ++ vs)) := hl.shift
    rw [findEndOfRunFrom, wp_bind, wp_listNext hnext, if_neg hl'.ne_end, wp_bind, wp_listPrev hprev,
      wp_bind, wp_lessAt, leBy_iff.1 hle, if_neg Bool.false_ne_true]
    exact ih hl' hrest hbreak (Nat.lt_of_succ_lt_succ hfuel)

/-- `find_end_of_run` from the start of a run. -/
theorem wp_findEndOfRun (hne : rng ≠ []) (hl : IsList h l (us ++ (rng ++ vs)))
    (hchain : rng.IsChain fun a b => leBy less a b = true)
    (hbreak : ∀ y ∈ vs.head?, leBy less (rng.getLast hne) y = false) (hfuel : rng.length < fuel)
    (Q : Option ν → Heap ν → Prop) :
    wp (findEndOfRun less fuel (some (firstOf l (rng ++ vs))) (listEnd l)) h Q ↔
      Q (some (firstOf l vs)) h := by
  cases rng with
  | nil => exact absurd rfl hne
  | cons x rng =>
    have htail : some x ≠ listEnd l := first_ne_listEnd hne hl
    rw [findEndOfRun, List.cons_append, firstOf_cons, wp_bind, wp_check, wp_bind, wp_check,
      wp_bind, wp_check, wp_findEndOfRunFrom hl hchain hbreak (Nat.lt_of_succ_lt hfuel)]
    exact ⟨fun hq => hq.2.2.2, fun hq => ⟨Option.some_ne_none _, Option.some_ne_none _, htail, hq⟩⟩

/-! ## Merging in place -/

/-- The loop of `inplace_merge`. Each round moves one element to its place, from the first range by
going on and from the second by a splice; the elements in place are `us`. -/
theorem wp_inplaceMergeFrom (hwf : WellFormed h F) (hl : F l = some (us ++ (as ++ (bs ++ vs))))
    (hfuel : as.length + bs.length < fuel) :
    wp (inplaceMergeFrom less fuel (some (firstOf l (as ++ (bs ++ vs))))
      (some (firstOf l (bs ++ vs))) (some (firstOf l vs))) h fun _ h' =>
        WellFormed h' (F.put l (us ++ (as.merge bs (leBy less) ++ vs))) := by
  induction fuel generalizing h F us as bs with
  | zero => cases hfuel
  | succ fuel ih =>
    have hlist := hwf.isList l _ hl
    rw [inplaceMergeFrom]
    cases as with
    | nil =>
      rw [List.nil_append, if_neg (fun hc => hc.1 rfl), wp_pure, List.nil_merge]
      rw [List.nil_append] at hl
      rwa [put_eq_self hl]
    | cons a as =>
      cases bs with
      | nil =>
        rw [List.nil_append, if_neg (fun hc => hc.2 rfl), wp_pure, List.merge_right]
        rw [List.nil_append] at hl
        rwa [put_eq_self hl]
      | cons b bs =>
        have hab : a ≠ firstOf l (b :: bs ++ vs) := first_ne_end hlist
        have hlistB : IsList h l ((us ++ a :: as) ++ (b :: bs ++ vs)) := by
          rw [List.append_assoc]
          exact hlist
        have hbend : b ≠ firstOf l vs := first_ne_end hlistB
        rw [List.cons_append, List.cons_append, firstOf_cons, firstOf_cons,
          if_pos ⟨fun e => hab (Option.some.inj e), fun e => hbend (Option.some.inj e)⟩,
          wp_bind, wp_lessAt,
          List.cons_merge_cons, leBy]
        cases hless : less b a with
        | false =>
          -- the first range goes on
          rw [Bool.not_false, if_pos rfl, if_pos rfl, wp_bind, wp_listNext (links_elem hlist).2]
          have hl' : F l = some ((us ++ [a]) ++ (as ++ (b :: bs ++ vs))) := by
            rw [List.append_assoc]
            exact hl
          have hlen : as.length + (b :: bs).length < fuel := by
            rw [List.length_cons] at hfuel
            omega
          have hnext := ih hwf hl' hlen
          rwa [List.append_assoc] at hnext
        | true =>
          -- the element of the second range goes before the first one
          have hbnext : (h b).next = some (firstOf l (bs ++ vs)) := (links_elem hlistB).2
          have hprev : (h (firstOf l (bs ++ vs))).prev = some b := by
            have hlistB' : IsList h l (((us ++ a :: as) ++ [b]) ++ (bs ++ vs)) := by
              rw [List.append_assoc]
              exact hlistB
            have hjoined := hlistB'.joined.2
            rwa [lastOf_concat] at hjoined
          rw [Bool.not_true, if_neg Bool.false_ne_true, if_neg Bool.false_ne_true, wp_bind,
            wp_listNext hbnext, wp_bind, wp_listPrev hprev, wp_bind]
          have hrange : F l = some ((us ++ a :: as) ++ [b] ++ (bs ++ vs)) := by
            rw [hl]
            simp only [List.append_assoc, List.cons_append, List.nil_append]
          have hplace : F.put l ((us ++ a :: as) ++ (bs ++ vs)) l =
              some (us ++ (a :: as ++ (bs ++ vs))) := by
            rw [put_self, List.append_assoc]
          refine wp_mono (wp_listSplice hwf hrange hplace) ?_
          intro _ h' hwf'
          rw [put_put] at hwf'
          have hlen : (a :: as).length + bs.length < fuel := by
            rw [List.length_cons (a := b)] at hfuel
            omega
          have hl' : F.put l (us ++ [b] ++ (a :: as ++ (bs ++ vs))) l =
              some ((us ++ [b]) ++ (a :: as ++ (bs ++ vs))) := put_self ..
          have hnext := ih hwf' hl' hlen
          rwa [put_put, List.append_assoc] at hnext

/-- `inplace_merge` of two sorted ranges. -/
theorem wp_inplaceMerge (hwf : WellFormed h F) (hl : F l = some (us ++ (as ++ (bs ++ vs))))
    (has : SortedBy less as) (hbs : SortedBy less bs) (hfuel : as.length + bs.length < fuel) :
    wp (inplaceMerge less fuel (some (firstOf l (as ++ (bs ++ vs)))) (some (firstOf l (bs ++ vs)))
      (some (firstOf l vs))) h fun _ h' =>
        WellFormed h' (F.put l (us ++ (as.merge bs (leBy less) ++ vs))) := by
  have hlist := hwf.isList l _ hl
  have hlistB : IsList h l ((us ++ as) ++ (bs ++ vs)) := by
    rw [List.append_assoc]
    exact hlist
  rw [inplaceMerge, wp_bind, wp_check, wp_bind, wp_check, wp_bind, wp_check, wp_bind,
    wp_isSorted hlist has (by omega), wp_bind, wp_check, wp_bind,
    wp_isSorted hlistB hbs (by omega), wp_bind,
    wp_check]
  exact ⟨Option.some_ne_none _, Option.some_ne_none _, Option.some_ne_none _, rfl, rfl,
    wp_inplaceMergeFrom hwf hl hfuel⟩

end Runs

/-! ## The passes -/

section Passes

variable {h : Heap ν} {F : Family ν} {l : KList ν} {out rest xs : List ν} {less : ν → ν → Bool}
  [hless : StrictWeak less] {bound fuel : Nat} {ms : List (List ν)}

omit [DecidableEq ν] hless in
/-- The first run of a list and the others. -/
theorem runs_cons {m : List ν} (hruns : runs less rest = m :: ms) :
    ∃ hne : m ≠ [], rest = m ++ ms.flatten ∧ (m.IsChain fun a b => leBy less a b = true) ∧
      (∀ y ∈ ms.flatten.head?, leBy less (m.getLast hne) y = false) ∧
        runs less ms.flatten = ms := by
  obtain ⟨hflat, hnil, hchain, hbreak⟩ := List.splitBy_eq_iff.1 hruns
  have hne : m ≠ [] := fun e => hnil (e ▸ List.mem_cons_self)
  have hnil' : [] ∉ ms := fun hmem => hnil (List.mem_cons_of_mem _ hmem)
  obtain ⟨hm, hms⟩ := List.forall_mem_cons.1 hchain
  refine ⟨hne, hflat, hm, ?_, ?_⟩
  · intro y hy
    cases ms with
    | nil => cases hy
    | cons m' ms =>
      obtain ⟨⟨_, hne', hlt⟩, -⟩ := List.isChain_cons_cons.1 hbreak
      rw [List.flatten_cons, List.head?_append_of_ne_nil _ hne', List.head?_eq_some_head hne',
        Option.mem_some_iff] at hy
      rwa [← hy]
  · exact List.splitBy_eq_iff.2 ⟨rfl, hnil', hms, hbreak.tail⟩

/-- One pass merges the runs from `a0` on in pairs and counts the results. -/
theorem wp_runPass {cnt : Nat} (hwf : WellFormed h F) (hl : F l = some (out ++ rest))
    (hruns : runs less rest = ms) (hbound : rest.length < bound) (hfuel : ms.length < fuel)
    (hcnt : cnt + ms.length < 2 ^ 64) :
    wp (runPass less l bound fuel (some (firstOf l rest)) cnt) h fun r h' =>
      r = cnt + (mergePairs less ms).length ∧
        WellFormed h' (F.put l (out ++ (mergePairs less ms).flatten)) := by
  induction ms using mergePairs.induct generalizing h F out rest cnt fuel with
  | case1 =>
    obtain _ | fuel := fuel
    · cases hfuel
    obtain rfl : rest = [] := List.splitBy_eq_nil.1 hruns
    rw [runPass, firstOf_nil, listEnd, if_pos rfl, wp_pure]
    refine ⟨rfl, ?_⟩
    rwa [mergePairs, List.flatten_nil, put_eq_self hl]
  | case2 m =>
    obtain _ | fuel := fuel
    · cases hfuel
    obtain ⟨hne, rfl, hchain, hbreak, -⟩ := runs_cons hruns
    have hlist := hwf.isList l _ hl
    have hlen : m.length < bound := by
      rwa [List.flatten_nil, List.append_nil] at hbound
    -- the run goes to the end of the list
    rw [runPass, if_neg (first_ne_listEnd hne hlist)]
    rw [wp_bind, wp_findEndOfRun hne hlist hchain hbreak hlen, List.flatten_nil,
      firstOf_nil, listEnd, if_pos rfl, wp_pure, mergePairs, List.length_singleton]
    refine ⟨Nat.mod_eq_of_lt hcnt, ?_⟩
    rw [List.flatten_nil, List.append_nil] at hl
    rwa [List.flatten_singleton, put_eq_self hl]
  | case3 as bs ms ih =>
    obtain _ | fuel := fuel
    · cases hfuel
    obtain ⟨hne, rfl, hchain, hbreak, hruns'⟩ := runs_cons hruns
    obtain ⟨hneB, hflat, hchainB, hbreakB, hrunsR⟩ := runs_cons hruns'
    rw [List.flatten_cons] at hl hbound hbreak ⊢
    rw [List.length_cons, List.length_cons] at hfuel hcnt
    rw [List.length_append, List.length_append] at hbound
    have hlist := hwf.isList l _ hl
    have hlistB : IsList h l ((out ++ as) ++ (bs ++ ms.flatten)) := by
      rw [List.append_assoc]
      exact hlist
    rw [runPass, if_neg (first_ne_listEnd hne hlist)]
    rw [wp_bind, wp_findEndOfRun hne hlist hchain hbreak (by omega),
      if_neg (first_ne_listEnd hneB hlistB), wp_bind,
      wp_findEndOfRun hneB hlistB hchainB hbreakB (by omega), wp_bind]
    refine wp_mono
      (wp_inplaceMerge hwf hl (sortedBy_of_isChain hchain) (sortedBy_of_isChain hchainB)
      (by omega)) ?_
    intro _ h' hwf'
    have hl' : F.put l (out ++ (as.merge bs (leBy less) ++ ms.flatten)) l =
        some ((out ++ as.merge bs (leBy less)) ++ ms.flatten) := by
      rw [put_self, List.append_assoc]
    have hmod : (cnt + 1) % 2 ^ 64 = cnt + 1 := Nat.mod_eq_of_lt (by omega)
    refine wp_mono (ih hwf' hl' hrunsR (by omega) (by omega) (by omega)) ?_
    rintro r h'' ⟨rfl, hwf''⟩
    rw [put_put, List.append_assoc] at hwf''
    rw [mergePairs, List.length_cons, List.flatten_cons]
    exact ⟨by omega, hwf''⟩

/-- The passes end: a pass that outputs more than one run has lowered the number of runs. -/
theorem wp_sortPasses (hwf : WellFormed h F) (hl : F l = some xs) (hsize : xs.length < 2 ^ 64)
    (hbound : xs.length < bound) (hfuel : (runs less xs).length < fuel) :
    wp (sortPasses less l bound fuel) h fun _ h' =>
      ∃ ys, StableSortOf less xs ys ∧ WellFormed h' (F.put l ys) := by
  induction fuel generalizing h F xs with
  | zero => cases hfuel
  | succ fuel ih =>
    have hlist := hwf.isList l xs hl
    have hsorted : ∀ m ∈ runs less xs, SortedBy less m := fun m hm => sortedBy_of_mem_runs hm
    have hle := length_runs_le less xs
    have hl' : F l = some ([] ++ xs) := hl
    obtain ⟨hperm, hstable⟩ := flatten_mergePairs hsorted
    rw [flatten_runs] at hperm hstable
    rw [sortPasses, wp_bind, listBegin, wp_readNext, hlist.joined_head.1, wp_bind]
    refine wp_mono (wp_runPass hwf hl' rfl hbound (by omega) (by omega)) ?_
    rintro cnt h' ⟨rfl, hwf'⟩
    rw [List.nil_append] at hwf'
    rw [Nat.zero_add, wp_ite]
    have hcount := length_mergePairs less (runs less xs)
    have hfewer := length_runs_flatten_le (sortedBy_mergePairs hsorted)
    constructor
    · intro hmany
      refine wp_mono (ih hwf' (put_self ..) ?_ ?_ (by omega)) ?_
      · rwa [hperm.length_eq]
      · rwa [hperm.length_eq]
      · rintro _ h'' ⟨ys, hys, hwf''⟩
        rw [put_put] at hwf''
        exact ⟨ys,
          ⟨hys.perm.trans hperm, hys.sorted, fun a => (hys.stable a).trans (hstable a)⟩, hwf''⟩
    · intro hone
      rw [wp_pure]
      exact ⟨_, ⟨hperm, sortedBy_of_length_runs (hfewer.trans (not_lt.1 hone)), hstable⟩, hwf'⟩

/-- `list_sort`, for elements that `size_t` can count. -/
theorem wp_listSort (hwf : WellFormed h F) (hl : F l = some xs) (hsize : xs.length < 2 ^ 64)
    (hfuel : xs.length < fuel) :
    wp (listSort less fuel l) h fun _ h' =>
      ∃ ys, StableSortOf less xs ys ∧ WellFormed h' (F.put l ys) := by
  rw [listSort, wp_bind]
  refine wp_mono (wp_sortPasses hwf hl hsize hfuel ((length_runs_le less xs).trans_lt hfuel)) ?_
  rintro _ h' ⟨ys, hys, hwf'⟩
  have hlist := hwf'.isList l ys (put_self ..)
  have hwhole : IsList h' l ([] ++ (ys ++ [])) := by
    rw [List.append_nil, List.nil_append]
    exact hlist
  have hlen : ys.length < fuel := by rwa [hys.perm.length_eq]
  have hcheck := wp_isSorted hwhole hys.sorted hlen
  rw [List.append_nil, firstOf_nil] at hcheck
  rw [wp_bind, listBegin, wp_readNext, hlist.joined_head.1, wp_bind, listEnd, hcheck, wp_check]
  exact ⟨rfl, ys, hys, hwf'⟩

end Passes

/-- **`list_sort` is a stable sort.** For every list and every strict weak order it returns, so no
`ASSERT` fails, and leaves the list with a stable sort of its elements; the other lists are as
before. -/
theorem list_sort_stable {h : Heap Address} {F : Family Address} {l : KList Address}
    {xs : List Address}
    {less : Address → Address → Bool} [StrictWeak less] {fuel : Nat} (hwf : WellFormed h F)
    (hl : F l = some xs) (hfuel : xs.length < fuel) :
    wp (listSort less fuel l) h fun _ h' =>
      ∃ ys, StableSortOf less xs ys ∧ WellFormed h' (F.put l ys) :=
  wp_listSort hwf hl (length_lt (hwf.isList l xs hl)) hfuel

/-- Addresses in the order of their halves, so that neighbours can be equivalent. -/
def lessHalf (a b : Address) : Bool := a.toNat / 2 < b.toNat / 2

instance : StrictWeak lessHalf where
  irrefl := fun a h => lt_irrefl _ (of_decide_eq_true h)
  trans := fun a b c hab hbc =>
    decide_eq_true ((of_decide_eq_true hab).trans (of_decide_eq_true hbc))
  incomp_trans := by
    intro a b c hab hbc
    simp only [lessHalf, decide_eq_true_eq] at hab hbc ⊢
    omega

/-- A node that no list of `F` has is in no list when one more list without it is put. -/
theorem free_put {F : Family ν} {l : KList ν} {xs : List ν} (hF : Free F x) (hx : x ∉ nodes l xs) :
    Free (F.put l xs) x := by
  intro l' ys hl'
  by_cases heq : l' = l
  · subst heq
    rw [put_self] at hl'
    obtain rfl := Option.some.inj hl'
    exact hx
  · rw [put_of_ne _ _ heq] at hl'
    exact hF l' ys hl'

/-- A list with given elements, made by `list_init` and `list_push_back`. -/
theorem exists_list {l : KList Address} {xs : List Address} (hnd : (nodes l xs).Nodup) :
    ∃ h, WellFormed h (Family.put (fun _ => none) l xs) := by
  induction xs using List.reverseRecOn with
  | nil =>
    have hempty : WellFormed (fun _ => ⟨none, none⟩) (fun _ => none : Family Address) :=
      ⟨fun _ _ hl => (by cases hl), fun _ _ _ _ hl => (by cases hl)⟩
    have hne : l.head ≠ l.tail := fun e => (List.nodup_cons.1 hnd).1 (List.mem_singleton.2 e)
    obtain ⟨-, h, -, hwf⟩ := wp_listInit hempty hne fun _ _ hl => (by cases hl)
    exact ⟨h, hwf⟩
  | append_singleton xs x ih =>
    have hperm : (nodes l (xs ++ [x])).Perm (x :: nodes l xs) := by
      have hmove := nodes_perm l xs [x] []
      rw [List.append_nil, List.append_nil] at hmove
      exact hmove
    obtain ⟨hx, hnd'⟩ := List.nodup_cons.1 (hperm.nodup_iff.1 hnd)
    obtain ⟨h, hwf⟩ := ih hnd'
    obtain ⟨-, h', -, hwf'⟩ :=
      wp_listPushBack hwf (put_self ..) (free_put (fun _ _ hl => (by cases hl)) hx)
    rw [put_put] at hwf'
    exact ⟨h', hwf'⟩

/-- Four elements, in two classes of equivalent ones. -/
theorem list_sort_stable_four : ∃ h, WellFormed h (Family.put (fun _ => none) ⟨1, 2⟩ [9, 6, 8, 7]) ∧
    wp (listSort lessHalf 5 ⟨1, 2⟩) h fun _ h' => ∃ ys, StableSortOf lessHalf [9, 6, 8, 7] ys ∧
      WellFormed h' (Family.put (Family.put (fun _ => none) ⟨1, 2⟩ [9, 6, 8, 7]) ⟨1, 2⟩ ys) := by
  obtain ⟨h, hwf⟩ := @exists_list ⟨1, 2⟩ [9, 6, 8, 7] (by decide)
  exact ⟨h, hwf, list_sort_stable hwf (put_self ..) (by decide)⟩

end Pintos.LibKernel.ListSort
