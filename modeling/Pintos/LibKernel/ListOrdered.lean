import Pintos.LibKernel.ListSort

/-!
# Lists in order

The other functions of `lib/kernel/list.c` that take a comparison function. `list_insert_ordered`
goes through the list up to the first greater element, so it puts a new element behind the
equivalent ones that are already there: insertion one by one is a stable sort too, and there is only
one (`ordered_insertion_agrees`). `list_unique` keeps the first of neighbours that are equivalent,
`list_max` and `list_min` find the first best element.
-/

set_option autoImplicit false

namespace Pintos.LibKernel.ListOrdered

open Function Lib.StateExcept Lib.LinkedNodes Lib.StableSort
open LibKernel.List ListFamily ListLaws ListSort

variable {ν : Type} [DecidableEq ν]

/-! ## The code -/

/-- The loop of `list_insert_ordered`: where the element is inserted. -/
def insertPositionFrom (less : ν → ν → Bool) (list : KList ν) (elem : Option ν) :
    Nat → Option ν → ListM ν (Option ν)
  | 0, _ => throw .endless
  | fuel + 1, e => do
    if e = listEnd list then return e
    if ← lessAt less elem e then return e
    insertPositionFrom less list elem fuel (← listNext e)

/-- `list_insert_ordered`. -/
def listInsertOrdered (less : ν → ν → Bool) (fuel : Nat) (list : KList ν) (elem : Option ν) :
    ListM ν Unit := do
  check (elem ≠ none) .listInsertOrderedElem
  listInsert (← insertPositionFrom less list elem fuel (← listBegin list)) elem

/-- The loop of `list_unique`; `duplicates` may be null. -/
def listUniqueFrom (less : ν → ν → Bool) (list : KList ν) (duplicates : Option (KList ν)) :
    Nat → Option ν → ListM ν Unit
  | 0, _ => throw .endless
  | fuel + 1, elem => do
    let next ← listNext elem
    if next = listEnd list then return
    if !(← lessAt less elem next) && !(← lessAt less next elem) then
      let _ ← listRemove next
      match duplicates with
      | some d => listPushBack d next
      | none => pure ()
      listUniqueFrom less list duplicates fuel elem
    else
      listUniqueFrom less list duplicates fuel next

/-- `list_unique`. -/
def listUnique (less : ν → ν → Bool) (fuel : Nat) (list : KList ν) (duplicates : Option (KList ν)) :
    ListM ν Unit := do
  if ← listEmpty list then return
  listUniqueFrom less list duplicates fuel (← listBegin list)

/-- The loop of `list_max` and `list_min`, which keeps the better element. -/
def listBestFrom (better : ν → ν → Bool) (list : KList ν) :
    Nat → Option ν → Option ν → ListM ν (Option ν)
  | 0, _, _ => throw .endless
  | fuel + 1, best, e => do
    if e = listEnd list then return best
    let best := if ← lessAt better e best then e else best
    listBestFrom better list fuel best (← listNext e)

/-- What `list_max` and `list_min` have in common. -/
def listBest (better : ν → ν → Bool) (fuel : Nat) (list : KList ν) : ListM ν (Option ν) := do
  let best ← listBegin list
  if best ≠ listEnd list then listBestFrom better list fuel best (← listNext best) else return best

/-- `list_max`: `e` takes the place of `max` when `less (max, e, aux)`. -/
def listMax (less : ν → ν → Bool) (fuel : Nat) (list : KList ν) : ListM ν (Option ν) :=
  listBest (fun e max => less max e) fuel list

/-- `list_min`: `e` takes the place of `min` when `less (e, min, aux)`. -/
def listMin (less : ν → ν → Bool) (fuel : Nat) (list : KList ν) : ListM ν (Option ν) :=
  listBest (fun e min => less e min) fuel list

/-! ## Insertion -/

section Insertion

variable {h : Heap ν} {F : Family ν} {l : KList ν} {us vs xs ys es : List ν} {e : ν}
  {less : ν → ν → Bool} {fuel : Nat}

/-- The loop of `list_insert_ordered` stops at the first greater element. -/
theorem wp_insertPositionFrom (hl : IsList h l (us ++ vs)) (hfuel : vs.length < fuel) :
    wp (insertPositionFrom less l (some e) fuel (some (firstOf l vs))) h fun r h' => h' = h ∧
      ∃ vs₁ vs₂, vs = vs₁ ++ vs₂ ∧ r = some (firstOf l vs₂) ∧
        vs.orderedInsert (fun a b => less a b = true) e = vs₁ ++ e :: vs₂ := by
  induction vs generalizing us fuel with
  | nil =>
    obtain _ | fuel := fuel
    · cases hfuel
    rw [insertPositionFrom, firstOf_nil, listEnd, if_pos rfl, wp_pure]
    exact ⟨rfl, [], [], rfl, rfl, rfl⟩
  | cons x vs ih =>
    obtain _ | fuel := fuel
    · cases hfuel
    rw [insertPositionFrom, firstOf_cons, if_neg hl.ne_end, wp_bind, wp_lessAt, wp_ite,
      List.orderedInsert_cons]
    constructor
    · intro hless
      rw [wp_pure, if_pos hless]
      exact ⟨rfl, [], x :: vs, rfl, rfl, rfl⟩
    · intro hless
      rw [wp_bind, wp_listNext (links_elem hl).2, if_neg hless]
      refine wp_mono (ih hl.shift (Nat.lt_of_succ_lt_succ hfuel)) ?_
      rintro r h' ⟨rfl, vs₁, vs₂, rfl, rfl, hins⟩
      exact ⟨rfl, x :: vs₁, vs₂, rfl, rfl, congrArg (x :: ·) hins⟩

/-- `list_insert_ordered`. -/
theorem wp_listInsertOrdered (hwf : WellFormed h F) (hl : F l = some xs) (he : Free F e)
    (hfuel : xs.length < fuel) :
    wp (listInsertOrdered less fuel l (some e)) h fun _ h' =>
      WellFormed h' (F.put l (xs.orderedInsert (fun a b => less a b = true) e)) := by
  have hlist := hwf.isList l xs hl
  have hwhole : IsList h l ([] ++ xs) := hlist
  rw [listInsertOrdered, wp_bind, wp_check]
  refine ⟨Option.some_ne_none e, ?_⟩
  rw [wp_bind, listBegin, wp_readNext, hlist.joined_head.1, wp_bind]
  refine wp_mono (wp_insertPositionFrom hwhole hfuel) ?_
  rintro _ h' ⟨rfl, vs₁, vs₂, rfl, rfl, hins⟩
  rw [hins]
  exact wp_listInsert hwf hl he

/-- The elements that are still to come stay outside all lists when one is put into `l`. -/
theorem free_rest (hl : F l = some xs) (hfree : ∀ x ∈ e :: es, Free F x) (hnd : (e :: es).Nodup)
    (hperm : ys.Perm (e :: xs)) : ∀ x ∈ es, Free (F.put l ys) x := by
  intro x hx
  have hF := hfree x (List.mem_cons_of_mem _ hx)
  refine free_put hF fun hmem => ?_
  have hout := hF l xs hl
  have hne : x ≠ e := fun heq => (List.nodup_cons.1 hnd).1 (heq ▸ hx)
  simp only [nodes, List.cons_append, List.mem_cons, List.mem_append, hperm.mem_iff,
    not_or] at hmem hout
  rcases hmem with hmem | (hmem | hmem) | hmem
  · exact hout.1 hmem
  · exact hne hmem
  · exact hout.2.1 hmem
  · rcases hmem with hmem | hmem
    · exact hout.2.2.1 hmem
    · cases hmem

/-- Insertion one by one keeps a stable sort of what has been inserted. -/
theorem wp_forM_listInsertOrdered [StrictWeak less] {done : List ν} (hwf : WellFormed h F)
    (hl : F l = some xs) (hdone : StableSortOf less done xs) (hfree : ∀ x ∈ es, Free F x)
    (hnd : es.Nodup)
    (hfuel : done.length + es.length < fuel) :
    wp (forM es fun e => listInsertOrdered less fuel l (some e)) h fun _ h' =>
      ∃ ys, StableSortOf less (done ++ es) ys ∧ WellFormed h' (F.put l ys) := by
  induction es generalizing h F xs done with
  | nil =>
    rw [List.forM_nil, wp_pure, List.append_nil]
    refine ⟨xs, hdone, ?_⟩
    rwa [put_eq_self hl]
  | cons e es ih =>
    rw [List.length_cons] at hfuel
    have hlen := hdone.perm.length_eq
    rw [List.forM_cons, wp_bind]
    refine wp_mono (wp_listInsertOrdered hwf hl (hfree e List.mem_cons_self) (by omega)) ?_
    intro _ h' hwf'
    have hrest := free_rest hl hfree hnd (List.perm_orderedInsert (fun a b => less a b = true) e xs)
    have hcount : (done ++ [e]).length + es.length < fuel := by
      rw [List.length_append, List.length_singleton]
      omega
    refine wp_mono
      (ih hwf' (put_self ..) (hdone.orderedInsert e) hrest (List.nodup_cons.1 hnd).2 hcount) ?_
    rintro _ h'' ⟨ys, hys, hwf''⟩
    rw [put_put] at hwf''
    rw [List.append_assoc] at hys
    exact ⟨ys, hys, hwf''⟩

/-- `list_push_back` one by one. -/
theorem wp_forM_listPushBack (hwf : WellFormed h F) (hl : F l = some xs)
    (hfree : ∀ x ∈ es, Free F x) (hnd : es.Nodup) :
    wp (forM es fun e => listPushBack l (some e)) h fun _ h' =>
      WellFormed h' (F.put l (xs ++ es)) := by
  induction es generalizing h F xs with
  | nil =>
    rw [List.forM_nil, wp_pure, List.append_nil]
    rwa [put_eq_self hl]
  | cons e es ih =>
    rw [List.forM_cons, wp_bind]
    refine wp_mono (wp_listPushBack hwf hl (hfree e List.mem_cons_self)) ?_
    intro _ h' hwf'
    have hrest := free_rest hl hfree hnd (List.perm_append_singleton e xs)
    refine wp_mono (ih hwf' (put_self ..) hrest (List.nodup_cons.1 hnd).2) ?_
    intro _ h'' hwf''
    rwa [put_put, List.append_assoc] at hwf''

end Insertion

/-! ## Removal of duplicates -/

section Unique

variable {h : Heap ν} {F : Family ν} {l : KList ν} {us vs xs : List ν} {a : ν} {less : ν → ν → Bool}
  {fuel : Nat} {duplicates : Option (KList ν)}

/-- The argument `duplicates` is null or another list. -/
def ValidDuplicates (F : Family ν) (l : KList ν) : Option (KList ν) → Prop
  | none => True
  | some d => d ≠ l ∧ ∃ ds, F d = some ds

/-- The lists with elements appended to `duplicates`, if there is such a list. -/
def appendTo (F : Family ν) : Option (KList ν) → List ν → Family ν
  | none, _ => F
  | some d, es => F.put d ((F d).getD [] ++ es)

theorem appendTo_nil (hvalid : ValidDuplicates F l duplicates) : appendTo F duplicates [] = F := by
  cases duplicates with
  | none => rfl
  | some d =>
    obtain ⟨-, ds, hd⟩ := hvalid
    rw [appendTo, hd, Option.getD_some, List.append_nil, put_eq_self hd]

/-- One element is taken out of the list and appended to `duplicates`. -/
theorem wp_moveDuplicate {b : ν} (hwf : WellFormed h F) (hl : F l = some (us ++ b :: vs))
    (hvalid : ValidDuplicates F l duplicates) {k : ListM ν Unit} {Q : Unit → Heap ν → Prop}
    (hk : ∀ h', WellFormed h' (appendTo (F.put l (us ++ vs)) duplicates [b]) → wp k h' Q) :
    wp (do
      let _ ← listRemove (some b)
      match duplicates with
      | some d => listPushBack d (some b)
      | none => pure ()
      k) h Q := by
  rw [wp_bind]
  refine wp_mono (wp_listRemove hwf hl) ?_
  rintro r h' ⟨-, hwf', hfree⟩
  cases duplicates with
  | none => exact hk h' hwf'
  | some d =>
    obtain ⟨hne, ds, hd⟩ := hvalid
    have hd' : F.put l (us ++ vs) d = some ds := by rw [put_of_ne _ _ hne, hd]
    show wp (listPushBack d (some b) >>= fun _ => k) h' Q
    rw [wp_bind]
    refine wp_mono (wp_listPushBack hwf' hd' hfree) ?_
    intro _ h'' hwf''
    apply hk
    rwa [appendTo, hd', Option.getD_some]

theorem appendTo_append (hvalid : ValidDuplicates F l duplicates) (xs ys es es' : List ν) :
    appendTo ((appendTo (F.put l xs) duplicates es).put l ys) duplicates es' =
      appendTo (F.put l ys) duplicates (es ++ es') := by
  cases duplicates with
  | none => exact put_put ..
  | some d =>
    obtain ⟨hne, ds, hd⟩ := hvalid
    simp only [appendTo, Family.put, update_self, update_of_ne hne, hd, Option.getD_some,
      List.append_assoc]
    rw [update_comm hne, update_idem, update_idem]

theorem validDuplicates_appendTo (hvalid : ValidDuplicates F l duplicates) (xs es : List ν) :
    ValidDuplicates (appendTo (F.put l xs) duplicates es) l duplicates := by
  cases duplicates with
  | none => trivial
  | some d => exact ⟨hvalid.1, _, put_self ..⟩

theorem appendTo_self (hvalid : ValidDuplicates F l duplicates) (xs es : List ν) :
    appendTo (F.put l xs) duplicates es l = some xs := by
  cases duplicates with
  | none => exact put_self ..
  | some d => rw [appendTo, put_of_ne _ _ hvalid.1.symm, put_self]

/-- The loop of `list_unique`. -/
theorem wp_listUniqueFrom (hwf : WellFormed h F) (hl : F l = some (us ++ a :: vs))
    (hvalid : ValidDuplicates F l duplicates) (hfuel : vs.length < fuel) :
    wp (listUniqueFrom less l duplicates fuel (some a)) h fun _ h' =>
      WellFormed h' (appendTo (F.put l (us ++ a :: (dedupFrom less a vs).1)) duplicates
        (dedupFrom less a vs).2) := by
  induction vs generalizing h F us a fuel with
  | nil =>
    obtain _ | fuel := fuel
    · cases hfuel
    have hnext : (h a).next = some l.tail := (links_elem (hwf.isList l _ hl)).2
    rw [listUniqueFrom, wp_bind, wp_listNext hnext, listEnd, if_pos rfl, wp_pure,
      dedupFrom, put_eq_self hl, appendTo_nil hvalid]
    exact hwf
  | cons b vs ih =>
    obtain _ | fuel := fuel
    · cases hfuel
    have hlist := hwf.isList l _ hl
    have hnext : (h a).next = some b := (links_elem hlist).2
    have hl' : F l = some ((us ++ [a]) ++ b :: vs) := by
      rw [hl, List.append_assoc]
      rfl
    rw [listUniqueFrom, wp_bind, wp_listNext hnext, if_neg hlist.shift.ne_end, wp_bind, wp_lessAt,
      wp_bind, wp_lessAt, dedupFrom, equivBy, wp_ite]
    constructor
    · intro hequiv
      rw [if_pos hequiv]
      apply wp_moveDuplicate hwf hl' hvalid
      intro h' hwf'
      rw [List.append_assoc] at hwf'
      refine wp_mono (ih hwf' (appendTo_self hvalid _ _) (validDuplicates_appendTo hvalid _ _)
        (Nat.lt_of_succ_lt_succ hfuel)) ?_
      intro _ h'' hwf''
      rwa [appendTo_append hvalid] at hwf''
    · intro hequiv
      rw [if_neg hequiv]
      refine wp_mono (ih hwf hl' hvalid (Nat.lt_of_succ_lt_succ hfuel)) ?_
      intro _ h' hwf'
      rwa [List.append_assoc] at hwf'

/-- What `list_unique` leaves of a list, and what it removes. -/
def dedup (less : ν → ν → Bool) : List ν → List ν × List ν
  | [] => ([], [])
  | a :: l => (a :: (dedupFrom less a l).1, (dedupFrom less a l).2)

theorem wp_listUnique (hwf : WellFormed h F) (hl : F l = some xs)
    (hvalid : ValidDuplicates F l duplicates) (hfuel : xs.length < fuel) :
    wp (listUnique less fuel l duplicates) h fun _ h' =>
      WellFormed h' (appendTo (F.put l (dedup less xs).1) duplicates (dedup less xs).2) := by
  rw [listUnique, wp_bind, wp_listEmpty hwf hl]
  cases xs with
  | nil =>
    rw [dedup, put_eq_self hl, appendTo_nil hvalid]
    simpa using hwf
  | cons a xs =>
    have hlist := hwf.isList l _ hl
    have hl' : F l = some ([] ++ a :: xs) := hl
    simp only [List.isEmpty_cons, Bool.false_eq_true, if_false]
    rw [wp_bind, listBegin, wp_readNext, hlist.joined_head.1, firstOf_cons]
    exact wp_listUniqueFrom hwf hl' hvalid (Nat.lt_of_succ_lt hfuel)

end Unique

/-! ## The first best element -/

section Best

variable {h : Heap ν} {l : KList ν} {us vs xs : List ν} {better : ν → ν → Bool} {fuel : Nat}

theorem wp_listBestFrom {best : ν} (hl : IsList h l (us ++ vs)) (hfuel : vs.length < fuel)
    (Q : Option ν → Heap ν → Prop) :
    wp (listBestFrom better l fuel (some best) (some (firstOf l vs))) h Q ↔
      Q (some (vs.foldl (choose better) best)) h := by
  induction vs generalizing us best fuel with
  | nil =>
    obtain _ | fuel := fuel
    · cases hfuel
    rw [listBestFrom, firstOf_nil, listEnd, if_pos rfl, wp_pure, List.foldl_nil]
  | cons x vs ih =>
    obtain _ | fuel := fuel
    · cases hfuel
    have hchoice : (if better x best = true then some x else some best) =
        some (choose better best x) := by
      rw [choose]
      split <;> rfl
    rw [listBestFrom, firstOf_cons, if_neg hl.ne_end, wp_bind, wp_lessAt]
    rw [wp_bind, wp_listNext (links_elem hl).2, hchoice, ih hl.shift (Nat.lt_of_succ_lt_succ hfuel),
      List.foldl_cons]

/-- The result of `list_max` or `list_min`: the tail of an empty list, or the first best element. -/
def BestOf (better : ν → ν → Bool) (l : KList ν) (xs : List ν) (r : Option ν) : Prop :=
  (xs = [] ∧ r = listEnd l) ∨ ∃ x, r = some x ∧ FirstBest better xs x

theorem wp_listBest [StrictWeak better] (hl : IsList h l xs) (hfuel : xs.length < fuel) :
    wp (listBest better fuel l) h fun r h' => h' = h ∧ BestOf better l xs r := by
  rw [listBest, wp_bind, listBegin, wp_readNext, hl.joined_head.1]
  cases xs with
  | nil =>
    rw [firstOf_nil, listEnd, if_neg (not_not.2 rfl), wp_pure]
    exact ⟨rfl, Or.inl ⟨rfl, rfl⟩⟩
  | cons x xs =>
    have hfirst : IsList h l ([] ++ x :: xs) := hl
    have hrest : IsList h l ([x] ++ xs) := hl
    rw [firstOf_cons, if_pos hfirst.ne_end, wp_bind, wp_listNext (links_elem hfirst).2,
      wp_listBestFrom hrest (Nat.lt_of_succ_lt hfuel)]
    exact ⟨rfl, Or.inr ⟨_, rfl, firstBest_foldl x xs⟩⟩

end Best

/-! ## Insertion and sorting -/

section Agreement

variable {h : Heap Address} {F : Family Address} {l : KList Address} {es ys : List Address}
  {less : Address → Address → Bool} [hless : StrictWeak less] {fuel : Nat}

/-- Exchanging the arguments of a strict weak order gives one. -/
instance strictWeak_swap : StrictWeak fun a b => less b a where
  irrefl := hless.irrefl
  trans := fun a b c hab hbc => hless.trans c b a hbc hab
  incomp_trans := fun a b c hab hbc => (hless.incomp_trans a b c hab.symm hbc.symm).symm

/-- What `list_unique` has done to the list `ys`, a stable sort of `es`: `kept` stays and `moved`
goes. -/
structure UniqueOf (less : Address → Address → Bool) (es ys kept moved : List Address) : Prop where
  increasing : kept.Pairwise fun a b => less a b = true
  /-- The elements that stay are those that were inserted first in their class. -/
  earliest : ∀ x, x ∈ kept ↔ es.find? (equivBy less x) = some x
  others : moved = ys.filter (· ∉ kept)

theorem uniqueOf_dedup (hys : StableSortOf less es ys) (hnd : es.Nodup) :
    UniqueOf less es ys (dedup less ys).1 (dedup less ys).2 := by
  -- the first of a class is the first of its members, which are in the same order in both lists
  have hfind : ∀ x, ys.find? (equivBy less x) = es.find? (equivBy less x) := by
    intro x
    rw [← List.head?_filter, ← List.head?_filter, hys.stable x]
  have hnd' : ys.Nodup := hys.perm.nodup_iff.2 hnd
  cases ys with
  | nil =>
    refine ⟨List.Pairwise.nil, ?_, rfl⟩
    intro x
    rw [← hfind x]
    exact ⟨fun hx => (by cases hx), fun hx => (by cases hx)⟩
  | cons a ys =>
    refine ⟨pairwise_dedupFrom hys.sorted, ?_, dedupFrom_snd hnd'⟩
    intro x
    rw [← hfind x]
    exact mem_dedupFrom_iff hys.sorted x

/-- What the functions do to a list `l` that holds `ys`, a stable sort of `es`. -/
structure OrderedCalls (less : Address → Address → Bool) (fuel : Nat) (l : KList Address)
    (es ys : List Address) (h : Heap Address) (F : Family Address) : Prop where
  unique : ∀ duplicates, ValidDuplicates F l duplicates →
    wp (listUnique less fuel l duplicates) h fun _ h' =>
      ∃ kept moved, UniqueOf less es ys kept moved ∧
        WellFormed h' (appendTo (F.put l kept) duplicates moved)
  max : wp (listMax less fuel l) h fun r h' => h' = h ∧ BestOf (fun e max => less max e) l ys r
  min : wp (listMin less fuel l) h fun r h' => h' = h ∧ BestOf (fun e min => less e min) l ys r

theorem orderedCalls (hys : StableSortOf less es ys) (hnd : es.Nodup) (hfuel : es.length < fuel)
    (hwf : WellFormed h F) (hl : F l = some ys) : OrderedCalls less fuel l es ys h F where
  unique := by
    intro duplicates hvalid
    have hlen : ys.length < fuel := by rwa [hys.perm.length_eq]
    refine wp_mono (wp_listUnique hwf hl hvalid hlen) ?_
    intro _ h' hwf'
    exact ⟨_, _, uniqueOf_dedup hys hnd, hwf'⟩
  max := wp_listBest (hwf.isList l ys hl) (by rwa [hys.perm.length_eq])
  min := wp_listBest (hwf.isList l ys hl) (by rwa [hys.perm.length_eq])

/-- **Insertion in order agrees with sorting.** Elements that are inserted one by one into an empty
list, and the same elements appended and sorted, make the same list; on that list, wherever it
stands, `list_unique`, `list_max` and `list_min` do what they should. -/
theorem ordered_insertion_agrees (hwf : WellFormed h F) (hl : F l = some [])
    (hfree : ∀ e ∈ es, Free F e) (hnd : es.Nodup) (hfuel : es.length < fuel) :
    ∃ ys, StableSortOf less es ys ∧
      wp (forM es fun e => listInsertOrdered less fuel l (some e)) h
        (fun _ h' => WellFormed h' (F.put l ys)) ∧
      wp (do
        forM es fun e => listPushBack l (some e)
        listSort less fuel l) h (fun _ h' => WellFormed h' (F.put l ys)) ∧
      ∀ h' G, WellFormed h' G → G l = some ys → OrderedCalls less fuel l es ys h' G := by
  have hempty : StableSortOf less ([] : List Address) [] :=
    ⟨List.Perm.refl _, List.Pairwise.nil, fun _ => rfl⟩
  have hinsert := wp_forM_listInsertOrdered hwf hl hempty hfree hnd
    (by rwa [List.length_nil, Nat.zero_add])
  obtain ⟨⟨⟩, h₁, hrun, ys, hys, hwf₁⟩ := hinsert
  refine ⟨ys, hys, ⟨(), h₁, hrun, hwf₁⟩, ?_, ?_⟩
  · rw [wp_bind]
    refine wp_mono (wp_forM_listPushBack hwf hl hfree hnd) ?_
    intro _ h₂ hwf₂
    have hsize := length_lt (hwf₂.isList l es (put_self ..))
    refine wp_mono (wp_listSort hwf₂ (put_self ..) hsize hfuel) ?_
    rintro _ h₃ ⟨zs, hzs, hwf₃⟩
    obtain rfl : zs = ys := hzs.unique hys
    rwa [put_put] at hwf₃
  · intro h' G hwf' hl'
    exact orderedCalls hys hnd hfuel hwf' hl'

/-- Four elements in two classes of equivalent ones. -/
theorem ordered_insertion_agrees_four : ∃ h F, WellFormed h F ∧ F ⟨1, 2⟩ = some [] ∧
    ∃ ys, StableSortOf lessHalf [9, 6, 8, 7] ys ∧
      wp (forM [9, 6, 8, 7] fun e => listInsertOrdered lessHalf 5 ⟨1, 2⟩ (some e)) h
        (fun _ h' => WellFormed h' (F.put ⟨1, 2⟩ ys)) ∧
      wp (do
        forM [9, 6, 8, 7] fun e => listPushBack ⟨1, 2⟩ (some e)
        listSort lessHalf 5 ⟨1, 2⟩) h (fun _ h' => WellFormed h' (F.put ⟨1, 2⟩ ys)) ∧
      ∀ h' G, WellFormed h' G → G ⟨1, 2⟩ = some ys →
        OrderedCalls lessHalf 5 ⟨1, 2⟩ [9, 6, 8, 7] ys h' G := by
  obtain ⟨h, hwf⟩ := @exists_list ⟨1, 2⟩ [] (by decide)
  have hfree : ∀ e ∈ ([9, 6, 8, 7] : List Address),
      Free (Family.put (fun _ => none) ⟨1, 2⟩ []) e := by
    have hall : ([9, 6, 8, 7] : List Address).all (fun e => e ∉ nodes ⟨1, 2⟩ []) = true := by decide
    intro e he
    exact free_put (fun _ _ hl => (by cases hl)) (of_decide_eq_true (List.all_eq_true.1 hall e he))
  exact ⟨h, _, hwf, put_self .., ordered_insertion_agrees hwf (put_self ..) hfree
    (by decide) (by decide)⟩

end Agreement

end Pintos.LibKernel.ListOrdered
