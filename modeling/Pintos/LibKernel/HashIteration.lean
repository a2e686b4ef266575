import Pintos.LibKernel.HashSets

/-!
# Going through a hash table

`hash_first`, `hash_next`, `hash_apply` and `hash_clear` of `lib/kernel/hash.c`. An iterator holds
the address of a bucket and of a node in it: the head before the first call, an element afterwards.
`Stands` relates an iterator to the list of the elements still to come, in the order of the buckets,
and each call of `hash_next` takes the first of them. The loop over an iterator and `hash_apply` are
both shown to be the same computation as one call of the body for each element of that list, for
every body that leaves the table alone. `hash_clear` is the same computation as unlinking each
element of that list and calling the destructor for it, which may also destroy the element it is
given.
-/

set_option autoImplicit false

namespace Pintos.LibKernel.HashIteration

open Function Lib.StateExcept Lib.LinkedNodes
open LibKernel.List ListFamily ListLaws
open LibKernel.Hash HashTable HashSets

/-! ## The functions -/

/-- `struct hash_iterator`; the table is the one of the state. -/
structure HashIterator where
  bucket : Address
  elem : Option Address
  deriving DecidableEq

/-- The list whose `struct list` is at an address. -/
def listAt (bucket : Address) : KList Address := ⟨bucket, bucket + 16⟩

/-- `hash_first`. -/
def hashFirst : HashM HashIterator := do
  let s ← get
  return ⟨s.buckets, some (listAt s.buckets).head⟩

/-- The loop of `hash_next`. Pointers to the buckets, and to the end of the array, are compared as
positions in memory, without wrapping. -/
def skipEmpty : Nat → HashIterator → HashM HashIterator
  | 0, _ => throw .endless
  | fuel + 1, i => do
    if i.elem = listEnd (listAt i.bucket) then
      let s ← get
      let bucket := i.bucket + UInt64.ofNat sizeofList
      if i.bucket.toNat + sizeofList ≥ s.buckets.toNat + sizeofList * s.bucketCnt then
        return ⟨bucket, none⟩
      skipEmpty fuel ⟨bucket, ← onHeap (listBegin (listAt bucket))⟩
    else
      return i

/-- `hash_next`; the element that it returns is `elem` of the iterator. -/
def hashNext (i : HashIterator) : HashM HashIterator := do
  let elem ← onHeap (listNext i.elem)
  skipEmpty loopBound ⟨i.bucket, elem⟩

/-- The rest of the loop `while (hash_next (&i)) body (hash_cur (&i))`. -/
def iterateFrom (body : Address → HashM Unit) : Nat → HashIterator → HashM Unit
  | 0, _ => throw .endless
  | fuel + 1, i => do
    let i ← hashNext i
    match i.elem with
    | none => return
    | some e =>
      body e
      iterateFrom body fuel i

/-- The iteration idiom: `hash_first`, then `hash_next` until it returns a null pointer. -/
def iterate (body : Address → HashM Unit) : HashM Unit := do
  iterateFrom body loopBound (← hashFirst)

/-- The inner loop of `hash_apply`. -/
def applyFrom (action : Address → HashM Unit) (bucket : KList Address) :
    Nat → Option Address → HashM Unit
  | 0, _ => throw .endless
  | fuel + 1, elem => do
    if elem = listEnd bucket then return
    let next ← onHeap (listNext elem)
    let e ← onHeap (deref elem)
    action e
    applyFrom action bucket fuel next

/-- The outer loop of `hash_apply`, for the bucket with number `i`. -/
def applyBucket (action : Address → HashM Unit) (i : Nat) : HashM Unit := do
  let bucket := bucketAt (← get).buckets i
  applyFrom action bucket loopBound (← onHeap (listBegin bucket))

/-- `hash_apply`. -/
def hashApply (action : Address → HashM Unit) : HashM Unit := do
  (List.range (← get).bucketCnt).forM (applyBucket action)

/-! ## Tables that are left alone -/

/-- The buckets of the table have the contents `c`. -/
structure Laid (t : HashState) (c : Nat → List Address) : Prop where
  fits : Fits t.buckets t.bucketCnt
  lists : ∀ i < t.bucketCnt, IsList t.heap (bucketAt t.buckets i) (c i)

/-- A change that leaves the table with the contents `c` alone. -/
structure Untouched (c : Nat → List Address) (t t' : HashState) : Prop where
  buckets : t'.buckets = t.buckets
  bucketCnt : t'.bucketCnt = t.bucketCnt
  nodes : ∀ i < t.bucketCnt, ∀ x ∈ nodes (bucketAt t.buckets i) (c i), t'.heap x = t.heap x

/-- Code that leaves the table alone where it returns. -/
def LeavesAlone (c : Nat → List Address) (body : Address → HashM Unit) : Prop :=
  ∀ e t t', body e t = .ok ((), t') → Untouched c t t'

variable {c : Nat → List Address} {s t t' : HashState} {body : Address → HashM Unit} {b fuel : Nat}
  {i : HashIterator} {left : List Address}

theorem Laid.untouched (h : Laid t c) (ht : Untouched c t t') : Laid t' c := by
  refine ⟨by rw [ht.buckets, ht.bucketCnt]; exact h.fits, ?_⟩
  intro i hi
  rw [ht.bucketCnt] at hi
  rw [ht.buckets]
  exact (h.lists i hi).frame (ht.nodes i hi)

/-- The elements of the buckets from number `b` on. -/
def elemsFrom (t : HashState) (c : Nat → List Address) (b : Nat) : List Address :=
  (List.range' b (t.bucketCnt - b)).flatMap c

theorem elemsFrom_of_lt (hb : b < t.bucketCnt) :
    elemsFrom t c b = c b ++ elemsFrom t c (b + 1) := by
  have hcnt : t.bucketCnt - b = t.bucketCnt - (b + 1) + 1 := by omega
  rw [elemsFrom, hcnt, List.range'_succ, List.flatMap_cons]
  rfl

theorem elemsFrom_of_le (hb : t.bucketCnt ≤ b) : elemsFrom t c b = [] := by
  rw [elemsFrom, Nat.sub_eq_zero_of_le hb]
  rfl

theorem elemsFrom_untouched (ht : Untouched c t t') (b : Nat) :
    elemsFrom t' c b = elemsFrom t c b := by
  rw [elemsFrom, elemsFrom, ht.bucketCnt]

/-! ## Addresses -/

theorem listAt_bucketAt (b : Address) (i : Nat) : listAt (bucketAt b i).head = bucketAt b i := by
  refine KList.ext rfl ?_
  change b + UInt64.ofNat (sizeofList * i) + 16 = b + UInt64.ofNat (sizeofList * i + 16)
  rw [UInt64.ofNat_add, UInt64.add_assoc]
  rfl

/-- The address after a bucket is that of the next one. -/
theorem head_succ (b : Address) (i : Nat) :
    (bucketAt b i).head + UInt64.ofNat sizeofList = (bucketAt b (i + 1)).head := by
  change b + UInt64.ofNat (sizeofList * i) + UInt64.ofNat sizeofList =
    b + UInt64.ofNat (sizeofList * (i + 1))
  rw [Nat.mul_succ, UInt64.ofNat_add, UInt64.add_assoc]

/-- The comparison of `hash_next` with the end of the array. -/
theorem next_ge_end_iff (h : Laid t c) (hb : b < t.bucketCnt) :
    (bucketAt t.buckets b).head.toNat + sizeofList ≥ t.buckets.toNat + sizeofList * t.bucketCnt ↔
      b + 1 = t.bucketCnt := by
  rw [head_toNat h.fits hb]
  simp only [sizeofList]
  omega

/-! ## The iterator -/

/-- The iterator stands before the elements `left`. -/
def Stands (t : HashState) (c : Nat → List Address) (i : HashIterator)
    (left : List Address) : Prop :=
  ∃ b < t.bucketCnt, ∃ us vs, c b = us ++ vs ∧ i.bucket = (bucketAt t.buckets b).head ∧
    i.elem = some (lastOf (bucketAt t.buckets b) us) ∧ left = vs ++ elemsFrom t c (b + 1)

/-- What a step gives: the first of the elements to come. -/
def Stepped (t : HashState) (c : Nat → List Address) (left : List Address)
    (i : HashIterator) : Prop :=
  (left = [] → i.elem = none) ∧ ∀ e rest, left = e :: rest → i.elem = some e ∧ Stands t c i rest

/-- The loop leaves the buckets that have no element left. -/
theorem reads_skipEmpty (h : Laid t c) (hb : b < t.bucketCnt) {us vs : List Address}
    (hc : c b = us ++ vs) (hfuel : t.bucketCnt - b < fuel) :
    ∃ i, Reads (skipEmpty fuel ⟨(bucketAt t.buckets b).head,
        some (firstOf (bucketAt t.buckets b) vs)⟩) t i ∧
      Stepped t c (vs ++ elemsFrom t c (b + 1)) i := by
  induction fuel generalizing b us vs with
  | zero => omega
  | succ fuel ih =>
    have hl : IsList t.heap (bucketAt t.buckets b) (us ++ vs) := hc ▸ h.lists b hb
    rw [skipEmpty, listAt_bucketAt]
    cases vs with
    | cons x vs =>
      -- the bucket has an element
      rw [firstOf_cons, if_neg hl.ne_end]
      refine ⟨_, rfl, fun h => (by cases h), ?_⟩
      rintro e rest he
      cases he
      refine ⟨rfl, b, hb, us ++ [x], vs, ?_, rfl, ?_, rfl⟩
      · rw [hc, List.append_assoc]
        rfl
      · rw [lastOf_concat]
    | nil =>
      rw [firstOf_nil, listEnd, if_pos rfl, head_succ]
      by_cases hend : b + 1 = t.bucketCnt
      · -- there is no other bucket
        have hge := (next_ge_end_iff h hb).2 hend
        refine ⟨⟨(bucketAt t.buckets (b + 1)).head, none⟩, ?_, ?_⟩
        · refine Reads.bind (a := t) rfl ?_
          rw [if_pos hge]
          rfl
        · rw [elemsFrom_of_le (le_of_eq hend.symm)]
          exact ⟨fun _ => rfl, fun _ _ h => (by cases h)⟩
      · have hb' : b + 1 < t.bucketCnt := by omega
        have hlt := mt (next_ge_end_iff h hb).1 hend
        have hl' : IsList t.heap (bucketAt t.buckets (b + 1)) (c (b + 1)) := h.lists _ hb'
        obtain ⟨i, hi, hstep⟩ := @ih (b + 1) hb' [] (c (b + 1)) rfl (by omega)
        refine ⟨i, ?_, ?_⟩
        · refine Reads.bind (a := t) rfl ?_
          rw [if_neg hlt, listAt_bucketAt]
          refine Reads.bind (a := some (firstOf (bucketAt t.buckets (b + 1)) (c (b + 1)))) ?_ hi
          rw [← hl'.joined_head.1]
          rfl
        · rw [List.nil_append, elemsFrom_of_lt hb']
          exact hstep

/-- There are fewer buckets than iterations of the loop. -/
theorem Laid.lt_loopBound (h : Laid t c) : t.bucketCnt < loopBound := by
  have hfits := h.fits
  simp only [Fits, sizeofList, loopBound] at hfits ⊢
  omega

/-- `hash_next` takes the first of the elements to come. -/
theorem reads_hashNext (h : Laid t c) (hi : Stands t c i left) :
    ∃ i', Reads (hashNext i) t i' ∧ Stepped t c left i' := by
  obtain ⟨b, hb, us, vs, hc, hbucket, helem, rfl⟩ := hi
  have hl : IsList t.heap (bucketAt t.buckets b) (us ++ vs) := hc ▸ h.lists b hb
  have hnext := reads_onHeap (wp_listNext hl.joined.1)
  rw [← helem] at hnext
  have hcnt : t.bucketCnt - b < loopBound := (Nat.sub_le _ _).trans_lt h.lt_loopBound
  obtain ⟨i', hi', hstep⟩ := reads_skipEmpty h hb hc hcnt
  refine ⟨i', ?_, hstep⟩
  exact hnext.bind (by rw [hbucket]; exact hi')

theorem Stands.untouched (ht : Untouched c t t') (hi : Stands t c i left) : Stands t' c i left := by
  obtain ⟨b, hb, us, vs, hc, hbucket, helem, hleft⟩ := hi
  refine ⟨b, by rw [ht.bucketCnt]; exact hb, us, vs, hc, ?_, ?_, ?_⟩
  · rw [ht.buckets]
    exact hbucket
  · rw [ht.buckets]
    exact helem
  · rw [elemsFrom_untouched ht]
    exact hleft

/-- The loop over an iterator calls its body for each of the elements to come. -/
theorem iterateFrom_eq (hbody : LeavesAlone c body) (h : Laid t c) (hi : Stands t c i left)
    (hfuel : left.length < fuel) :
    iterateFrom body fuel i t = left.forM body t := by
  induction left generalizing t i fuel with
  | nil =>
    cases fuel with
    | zero => omega
    | succ fuel =>
      obtain ⟨i', hnext, hend, -⟩ := reads_hashNext h hi
      refine hnext.bind ?_
      rw [hend rfl]
      rfl
  | cons e left ih =>
    cases fuel with
    | zero => omega
    | succ fuel =>
      obtain ⟨i', hnext, -, hstep⟩ := reads_hashNext h hi
      obtain ⟨helem, hi'⟩ := hstep e left rfl
      rw [iterateFrom, hnext.bind_eq, helem]
      refine bind_congr_at rfl ?_
      intro _ t' hrun
      have ht := hbody e t t' hrun
      exact ih (h.untouched ht) (hi'.untouched ht) (Nat.lt_of_succ_lt_succ hfuel)

theorem iterate_eq (hbody : LeavesAlone c body) (h : Laid t c) (hpos : 0 < t.bucketCnt)
    (hlen : (elemsFrom t c 0).length < loopBound) :
    iterate body t = (elemsFrom t c 0).forM body t := by
  have hfirst : Reads hashFirst t ⟨t.buckets, some (listAt t.buckets).head⟩ := rfl
  rw [iterate, hfirst.bind_eq]
  refine iterateFrom_eq hbody h ?_ hlen
  have hzero : (bucketAt t.buckets 0).head = t.buckets := by
    change t.buckets + UInt64.ofNat (sizeofList * 0) = t.buckets
    exact UInt64.add_zero _
  refine ⟨0, hpos, [], c 0, rfl, hzero.symm, ?_, elemsFrom_of_lt hpos⟩
  rw [lastOf_nil, hzero]
  rfl

/-! ## `hash_apply` -/

theorem Untouched.trans {t'' : HashState} (h : Untouched c t t') (h' : Untouched c t' t'') :
    Untouched c t t'' := by
  refine ⟨h'.buckets.trans h.buckets, h'.bucketCnt.trans h.bucketCnt, ?_⟩
  intro i hi x hx
  rw [h'.nodes i (by rw [h.bucketCnt]; exact hi) x (by rw [h.buckets]; exact hx), h.nodes i hi x hx]

/-- A sequence of calls leaves the table alone. -/
theorem wlp_forM_untouched (hbody : LeavesAlone c body) (es : List Address) :
    wlp (es.forM body) t fun _ t' => Untouched c t t' := by
  induction es generalizing t with
  | nil => exact (wlp_pure _ _ _).2 ⟨rfl, rfl, fun _ _ _ _ => rfl⟩
  | cons e es ih =>
    rw [List.forM_eq_forM, List.forM_cons, wlp_bind]
    intro _ t' hrun
    exact wlp_mono ih fun _ t'' h => (hbody e t t' hrun).trans h

/-- One bucket of `hash_apply`. -/
theorem applyFrom_eq (hbody : LeavesAlone c body) (h : Laid t c) (hb : b < t.bucketCnt)
    {us vs : List Address} (hc : c b = us ++ vs) (hfuel : vs.length < fuel) :
    applyFrom body (bucketAt t.buckets b) fuel (some (firstOf (bucketAt t.buckets b) vs)) t =
      vs.forM body t := by
  induction vs generalizing t us fuel with
  | nil =>
    cases fuel with
    | zero => omega
    | succ fuel =>
      rw [applyFrom, firstOf_nil, listEnd, if_pos rfl]
      rfl
  | cons e vs ih =>
    cases fuel with
    | zero => omega
    | succ fuel =>
      have hl : IsList t.heap (bucketAt t.buckets b) (us ++ e :: vs) := hc ▸ h.lists b hb
      have hnext := reads_onHeap (wp_listNext (links_elem hl).2)
      have hderef : Reads (onHeap (deref (some e))) t e := rfl
      rw [applyFrom, firstOf_cons, if_neg hl.ne_end,
        hnext.bind_eq, hderef.bind_eq]
      refine bind_congr_at rfl ?_
      intro _ t' hrun
      have ht := hbody e t t' hrun
      have hc' : c b = (us ++ [e]) ++ vs := by
        rw [hc, List.append_assoc]
        rfl
      have := ih (h.untouched ht) (by rw [ht.bucketCnt]; exact hb) hc'
        (Nat.lt_of_succ_lt_succ hfuel)
      rw [ht.buckets] at this
      exact this

/-- `hash_apply` from the bucket with number `b` on. -/
theorem applyBuckets_eq (hbody : LeavesAlone c body) (h : Laid t c) {n : Nat}
    (hb : b + n = t.bucketCnt) :
    (List.range' b n).forM (applyBucket body) t = ((List.range' b n).flatMap c).forM body t := by
  induction n generalizing b t with
  | zero => rfl
  | succ n ih =>
    have hlt : b < t.bucketCnt := by omega
    have hl := h.lists b hlt
    have hget : Reads (get : HashM HashState) t t := rfl
    have hbegin : Reads (onHeap (listBegin (bucketAt t.buckets b))) t
        (some (firstOf (bucketAt t.buckets b) (c b))) := by
      rw [← hl.joined_head.1]
      rfl
    rw [List.range'_succ, List.flatMap_cons, List.forM_eq_forM, List.forM_eq_forM, List.forM_cons,
      List.forM_append]
    refine bind_congr_at ?_ ?_
    · rw [applyBucket, hget.bind_eq, hbegin.bind_eq]
      exact applyFrom_eq hbody h hlt (List.nil_append _).symm (length_lt hl)
    · intro _ t' hrun
      have ht := wlp_forM_untouched hbody (c b) _ _ hrun
      exact ih (h.untouched ht) (by rw [ht.bucketCnt]; omega)

theorem hashApply_eq (hbody : LeavesAlone c body) (h : Laid t c) :
    hashApply body t = (elemsFrom t c 0).forM body t := by
  have hget : Reads (get : HashM HashState) t t := rfl
  rw [hashApply, hget.bind_eq, List.range_eq_range', elemsFrom, Nat.sub_zero]
  exact applyBuckets_eq hbody h (Nat.zero_add _)

/-! ## `hash_clear` -/

/-- `list_remove` of an element. -/
def unlinkElem (e : Address) : HashM Unit := do
  let _ ← onHeap (listRemove (some e))

/-- An element is unlinked and given to the destructor. -/
def destroyElem (destructor : Address → HashM Unit) (e : Address) : HashM Unit := do
  unlinkElem e
  destructor e

/-- `list_init` changes nothing in an empty list. -/
theorem listInit_of_empty {h : Heap Address} {l : KList Address} (hl : IsList h l []) :
    listInit l h = .ok ((), h) := by
  have hprev : ∀ {x q}, (h x).prev = q → setPrev h x q = h := fun he => by
    rw [setPrev, ← he]
    exact update_eq_self _ _
  have hnext : ∀ {x q}, (h x).next = q → setNext h x q = h := fun he => by
    rw [setNext, ← he]
    exact update_eq_self _ _
  have hhead : (h l.head).next = some l.tail := hl.joined_head.1
  have htail : (h l.tail).prev = some l.head := hl.joined_tail.2
  have hinit : wp (listInit l) h fun _ h' => h' = h := by
    simp only [listInit, wp_bind, wp_writePrev, wp_writeNext, hprev hl.headPrev, hnext hl.tailNext,
      hnext hhead, hprev htail]
  obtain ⟨_, _, hrun, rfl⟩ := hinit
  exact hrun

section Clear

variable {F : Family Address} {destructor : Address → HashM Unit} {l : KList Address}
  {xs : List Address}

/-- The loop over the elements of a bucket. -/
theorem destroyElems_eq (hwf : WellFormed t.heap F) (hl : F l = some xs)
    (hd : Sparing F destructor) (hfuel : xs.length < fuel) :
    destroyElems destructor l fuel t = xs.forM (destroyElem destructor) t := by
  induction xs generalizing t F fuel with
  | nil =>
    cases fuel with
    | zero => omega
    | succ fuel =>
      rw [destroyElems, (reads_onHeap (wp_listEmpty hwf hl)).bind_eq]
      rfl
  | cons e xs ih =>
    cases fuel with
    | zero => omega
    | succ fuel =>
      have hd' : Sparing (F.put l xs) destructor := hd.mono fun _ hx =>
        Free.put hx (show F l = some ([e] ++ xs) from hl)
      have hempty := reads_onHeap (wp_listEmpty hwf hl)
      obtain ⟨_, _, hpop, rfl, rfl⟩ := (wp_listPopFront_iff hwf hl fun r h =>
        r = some e ∧ h = unlink t.heap l.head (firstOf l xs)).2 ⟨rfl, rfl⟩
      obtain ⟨r, _, hremove, rfl⟩ := (wp_listRemove_iff (show IsList t.heap l ([] ++ e :: xs) from
        hwf.isList l _ hl) fun _ h =>
        h = unlink t.heap l.head (firstOf l xs)).2 rfl
      obtain ⟨-, hwf', hfree⟩ := wp_of_eq_ok (wp_listPopFront hwf hl) hpop
      have hfront : onHeap (do deref (← listPopFront l)) t =
          .ok (e, { t with heap := unlink t.heap l.head (firstOf l xs) }) := by
        rw [onHeap, bind_eq_of_ok hpop]
        rfl
      have hunlink : unlinkElem e t =
          .ok ((), { t with heap := unlink t.heap l.head (firstOf l xs) }) := by
        refine bind_eq_of_ok (a := r) (x := onHeap (listRemove (some e))) ?_
        rw [onHeap, hremove]
      rw [destroyElems, hempty.bind_eq, List.isEmpty_cons, if_neg Bool.false_ne_true,
        bind_eq_of_ok hfront,
        List.forM_eq_forM, List.forM_cons, destroyElem, bind_assoc, bind_eq_of_ok hunlink]
      refine bind_congr_at rfl ?_
      intro _ t' hrun
      obtain ⟨-, hnodes⟩ := wp_of_eq_ok (hd' e _) hrun
      refine ih (hwf'.frame fun x hx => hnodes x hx ?_) (put_self ..) hd'
        (Nat.lt_of_succ_lt_succ hfuel)
      rintro rfl
      exact hx hfree

/-- The loop over the buckets, from number `b` on. -/
theorem clearBuckets_eq {B : Address} {n m : Nat} (hfits : Fits B m) (hb : b + n = m)
    (hwf : WellFormed t.heap F) (hd : Sparing F destructor)
    (hlists : ∀ i, b ≤ i → i < m → F (bucketAt B i) = some (c i)) :
    (List.range' b n).forM (fun i => clearBucket (some destructor) (bucketAt B i)) t =
      ((List.range' b n).flatMap c).forM (destroyElem destructor) t := by
  induction n generalizing b t F with
  | zero => rfl
  | succ n ih =>
    have hl := hlists b le_rfl (by omega)
    have hfuel := length_lt (hwf.isList _ _ hl)
    obtain ⟨_, _, hrun, heap, mallocResult, rfl, hwf'⟩ := wp_destroyElems hwf hl hd hfuel
    have heq : forM (c b) (destroyElem destructor) t = _ :=
      (destroyElems_eq hwf hl hd hfuel).symm.trans hrun
    have hinit : onHeap (listInit (bucketAt B b))
        { t with heap := heap, mallocResult := mallocResult } =
          .ok ((), { t with heap := heap, mallocResult := mallocResult }) := by
      rw [onHeap, listInit_of_empty (hwf'.isList _ _ (put_self ..))]
    have hclear : clearBucket (some destructor) (bucketAt B b) t =
        .ok ((), { t with heap := heap, mallocResult := mallocResult }) :=
      (bind_eq_of_ok hrun).trans hinit
    rw [List.range'_succ, List.flatMap_cons, List.forM_eq_forM, List.forM_eq_forM, List.forM_cons,
      List.forM_append, bind_eq_of_ok hclear, bind_eq_of_ok heq]
    refine ih (by omega) hwf'
      (hd.mono fun x hx => Free.put hx (show F _ = some (c b ++ []) by rwa [List.append_nil]))
      fun i hi him => ?_
    rw [put_of_ne _ _ (bucketAt_ne hfits him (by omega) (by omega))]
    exact hlists i (by omega) him

end Clear

/-! ## Whole tables -/

section Tables

variable {hash : Address → UInt64} {less : Address → Address → Bool} {S : Finset Address}
  {F : Family Address}

/-- The elements in the order of the buckets are the elements of the set, each once. -/
theorem elemsFrom_exact (h : Represents hash less s S c F) :
    (elemsFrom s c 0).Nodup ∧ ∀ e, e ∈ elemsFrom s c 0 ↔ e ∈ S := by
  rw [elemsFrom, Nat.sub_zero, ← List.range_eq_range']
  refine ⟨h.holds.nodup, ?_⟩
  intro e
  rw [h.elems e, List.mem_flatMap]
  simp only [List.mem_range]

theorem elemsFrom_length (h : Represents hash less s S c F) :
    (elemsFrom s c 0).length < loopBound := by
  obtain ⟨hnodup, hmem⟩ := elemsFrom_exact h
  have hS : (elemsFrom s c 0).toFinset = S := by
    ext e
    rw [List.mem_toFinset, hmem]
  rw [← List.toFinset_card_of_nodup hnodup, hS]
  exact card_lt h.holds h.elems

/-- Iteration is exact. There is a list of the elements, each once, such that the loop over an
iterator calls its body, and `hash_apply` its action, for the elements of the list in order, and
`hash_clear` unlinks them and calls its destructor for each of them, in order, and leaves an empty
table. The body and the action leave the table alone; the destructor may change the element that it
is given. -/
theorem hash_iteration_exact (h : Represents hash less s S c F) :
    ∃ elems : List Address, elems.Nodup ∧ (∀ e, e ∈ elems ↔ e ∈ S) ∧
      (∀ body, LeavesAlone c body → iterate body s = elems.forM body s) ∧
      (∀ action, LeavesAlone c action → hashApply action s = elems.forM action s) ∧
      ∀ destructor, SparesTable s S destructor →
        hashClear (some destructor) s = (elems.forM (destroyElem destructor) >>= fun _ =>
          modify fun t => { t with elemCnt := 0 }) s ∧
        wp (hashClear (some destructor)) s fun _ s' =>
          ∃ c' F', Represents hash less s' ∅ c' F' := by
  have hlaid : Laid s c := ⟨h.holds.buckets.fits, fun i hi => h.holds.isList hi⟩
  obtain ⟨hnodup, hmem⟩ := elemsFrom_exact h
  refine ⟨elemsFrom s c 0, hnodup, hmem, ?_, ?_, ?_⟩
  · intro body hbody
    exact iterate_eq hbody hlaid h.holds.pos (elemsFrom_length h)
  · intro action haction
    exact hashApply_eq haction hlaid
  · intro destructor hd
    constructor
    · have hget : Reads (get : HashM HashState) s s := rfl
      rw [hashClear, hget.bind_eq, List.range_eq_range']
      refine bind_congr_at ?_ fun _ _ _ => rfl
      exact clearBuckets_eq h.holds.buckets.fits (Nat.zero_add _) h.holds.wf (h.sparing hd)
        fun i _ hi => h.holds.buckets.lists i hi
    · refine wp_mono (wp_hashClear_represents h fun d hsome => ?_) fun _ _ hrep => hrep.1
      cases hsome
      exact hd

/-- A destructor that overwrites the links of its element. -/
def wipe (e : Address) : HashM Unit :=
  modify fun t => { t with heap := update t.heap e ⟨none, none⟩ }

/-- A table with three elements, and a destructor that overwrites the links of each. -/
theorem hash_iteration_exact_wipe :
    ∃ (s s' : HashState) (elems : List Address), s.elemCnt = 3 ∧ elems.Nodup ∧
      (∀ e, e ∈ elems ↔ e ∈ elemsTo 3) ∧ hashClear (some wipe) s = .ok ((), s') ∧
      hashClear (some wipe) s = (elems.forM (destroyElem wipe) >>= fun _ =>
        modify fun t => { t with elemCnt := 0 }) s := by
  obtain ⟨s, hreach, -⟩ := exists_table (n := 3) (by decide)
  obtain ⟨c, F, hrep⟩ := reaches_represents eq_of_equivBy_below hreach
  obtain ⟨elems, hnodup, hmem, -, -, hclear⟩ := hash_iteration_exact hrep
  have hspare : SparesTable s (elemsTo 3) wipe := by
    intro e t
    rw [wipe, wp_modify]
    exact ⟨⟨_, t.mallocResult, rfl⟩, fun x _ hx => update_of_ne hx _ _⟩
  obtain ⟨heq, _, s', hrun, -⟩ := hclear _ hspare
  exact ⟨s, s', elems, hrep.count.trans (by decide +kernel), hnodup, hmem, hrun, heq⟩

end Tables

end Pintos.LibKernel.HashIteration
