import Pintos.Lib.StableSort
import Pintos.LibKernel.Hash

/-!
# The buckets of a hash table

The representation of a table in terms of the contents of its buckets, and what the functions of
`hash.c` do to it. `Holds` says that the array of buckets is a family of lists with given contents
and that every element is in its home bucket, whose number is `hash & (bucket_cnt - 1)`. Searching
looks at the home bucket; insertion and removal change one bucket; `rehash` empties the old buckets
one element at a time into a new array. While it runs two arrays are in use (`Moving`).
-/

set_option autoImplicit false

namespace Pintos.LibKernel.HashTable

open Function (update update_self update_of_ne update_eq_self update_idem)
open Lib.StateExcept Lib.LinkedNodes
open LibKernel.List ListFamily ListLaws
open LibKernel.Hash
open Lib.StableSort (equivBy)

/-! ## Bucket numbers -/

/-- The number of the bucket that `e` belongs in, out of `n` buckets. -/
def homeOf (hash : Address → UInt64) (n : Nat) (e : Address) : Nat := (hash e).toNat &&& (n - 1)

variable {n k fuel i : Nat} {l : KList Address} {us : List Address} {e : Address}

theorem homeOf_lt (hash : Address → UInt64) (hn : 0 < n) (e : Address) :
    homeOf hash n e < n :=
  lt_of_le_of_lt Nat.and_le_right (Nat.sub_lt hn one_pos)

/-- Subtracting one from a positive 64-bit number does not wrap. -/
theorem pred_mod (hpos : 0 < n) (hlt : n ≤ 2 ^ 64) : (n + 2 ^ 64 - 1) % 2 ^ 64 = n - 1 := by
  omega

theorem turnOffLeast1bit_eq (hpos : 0 < n) (hlt : n ≤ 2 ^ 64) :
    turnOffLeast1bit n = n &&& (n - 1) := by
  rw [turnOffLeast1bit, pred_mod hpos hlt]

/-- Between two powers of two the highest bit stays when the lowest is turned off. -/
theorem and_pred (hlo : 2 ^ k < n) (hhi : n < 2 ^ (k + 1)) :
    2 ^ k ≤ n &&& (n - 1) ∧ n &&& (n - 1) < n := by
  have hbit : ∀ m, 2 ^ k ≤ m → m < 2 ^ (k + 1) → m.testBit k = true := by
    intro m h1 h2
    rw [Nat.testBit_eq_decide_div_mod_eq]
    have hdiv : m / 2 ^ k = 1 := by
      exact Nat.div_eq_of_lt_le (by omega) (by omega)
    simp [hdiv]
  constructor
  · apply Nat.ge_two_pow_of_testBit
    rw [Nat.testBit_and, hbit n (by omega) hhi, hbit (n - 1) (by omega) (by omega)]
    rfl
  · exact lt_of_le_of_lt Nat.and_le_right (by omega)

theorem isPowerOf2_iff (hlo : 2 ^ k ≤ n) (hhi : n < 2 ^ (k + 1)) (hn : n ≤ 2 ^ 64) :
    isPowerOf2 n = true ↔ n = 2 ^ k := by
  have hpos : 0 < n := lt_of_lt_of_le (Nat.two_pow_pos k) hlo
  rw [isPowerOf2, turnOffLeast1bit_eq hpos hn]
  by_cases he : n = 2 ^ k
  · have hzero : n &&& (n - 1) = 0 := by
      rw [he, Nat.and_two_pow_sub_one_eq_mod, Nat.mod_self]
    simp [he, he ▸ hzero]
  · have hge := (and_pred (lt_of_le_of_ne hlo (Ne.symm he)) hhi).1
    have hne : n &&& (n - 1) ≠ 0 := by
      omega
    simp [he, hne]

/-- The loop ends at the highest power of two. -/
theorem wp_roundDownPowerOf2 (hlo : 2 ^ k ≤ n) (hhi : n < 2 ^ (k + 1)) (hn : n ≤ 2 ^ 64)
    (hfuel : n - 2 ^ k < fuel) (s : HashState) (Q : Nat → HashState → Prop) :
    wp (roundDownPowerOf2 fuel n) s Q ↔ Q (2 ^ k) s := by
  induction fuel generalizing n with
  | zero => omega
  | succ fuel ih =>
    rw [roundDownPowerOf2]
    by_cases he : n = 2 ^ k
    · rw [if_pos ((isPowerOf2_iff hlo hhi hn).2 he), wp_pure, he]
    · obtain ⟨hlo', hlt⟩ := and_pred (lt_of_le_of_ne hlo (Ne.symm he)) hhi
      rw [if_neg (fun h => he ((isPowerOf2_iff hlo hhi hn).1 h)),
        turnOffLeast1bit_eq (by omega) hn]
      exact ih hlo' (by omega) (by omega) (by omega)

/-- The number of buckets that `rehash` aims at: the largest power of two that is not above half the
number of elements, or four. -/
def bucketGoal (elemCnt : Nat) : Nat := 2 ^ (max 4 (elemCnt / 2)).log2

theorem bucketGoal_size (elemCnt : Nat) : ∃ k, 2 ≤ k ∧ bucketGoal elemCnt = 2 ^ k :=
  ⟨_, (Nat.le_log2 (by omega)).2 (by omega), rfl⟩

theorem wp_newBucketCnt {elemCnt : Nat} (h : elemCnt < 2 ^ 64) (s : HashState)
    (Q : Nat → HashState → Prop) : wp (newBucketCnt elemCnt) s Q ↔ Q (bucketGoal elemCnt) s := by
  have hif : (if elemCnt / 2 < 4 then 4 else elemCnt / 2) = max 4 (elemCnt / 2) := by
    split_ifs <;> omega
  have hbound : max 4 (elemCnt / 2) < loopBound := by
    rw [loopBound]
    omega
  rw [newBucketCnt, hif]
  exact wp_roundDownPowerOf2 (Nat.log2_self_le (by omega)) Nat.lt_log2_self hbound.le
    ((Nat.sub_le _ _).trans_lt hbound) s Q

theorem newBucketCnt_eq {elemCnt : Nat} (h : elemCnt < 2 ^ 64) (s : HashState) :
    newBucketCnt elemCnt s = .ok (bucketGoal elemCnt, s) := by
  obtain ⟨_, _, hrun, rfl, rfl⟩ := (wp_newBucketCnt h s fun a t => a = bucketGoal elemCnt ∧ t = s).2
    ⟨rfl, rfl⟩
  exact hrun

/-! ## Arrays of buckets -/

/-- The array of `n` buckets at `b` lies inside the address space. -/
def Fits (b : Address) (n : Nat) : Prop := b.toNat + sizeofList * n ≤ 2 ^ 64

section Arrays

variable {b : Address} {n i j : Nat}

section

variable (hfits : Fits b n)
include hfits

theorem Fits.le : n ≤ 2 ^ 64 := by
  simp only [Fits, sizeofList] at hfits
  omega

theorem head_toNat (hi : i < n) :
    (bucketAt b i).head.toNat = b.toNat + 32 * i := by
  simp only [Fits, sizeofList] at hfits
  simp only [bucketAt, sizeofList, UInt64.toNat_add, UInt64.toNat_ofNat']
  omega

theorem tail_toNat (hi : i < n) :
    (bucketAt b i).tail.toNat = b.toNat + 32 * i + 16 := by
  simp only [Fits, sizeofList] at hfits
  simp only [bucketAt, sizeofList, UInt64.toNat_add, UInt64.toNat_ofNat']
  omega

theorem head_ne_tail (hi : i < n) (hj : j < n) :
    (bucketAt b i).head ≠ (bucketAt b j).tail := by
  intro e
  have h := congrArg UInt64.toNat e
  rw [head_toNat hfits hi, tail_toNat hfits hj] at h
  omega

theorem head_injective (hi : i < n) (hj : j < n) (h : (bucketAt b i).head = (bucketAt b j).head) :
    i = j := by
  have h := congrArg UInt64.toNat h
  rw [head_toNat hfits hi, head_toNat hfits hj] at h
  omega

theorem tail_injective (hi : i < n) (hj : j < n) (h : (bucketAt b i).tail = (bucketAt b j).tail) :
    i = j := by
  have h := congrArg UInt64.toNat h
  rw [tail_toNat hfits hi, tail_toNat hfits hj] at h
  omega

theorem bucketAt_ne (hi : i < n) (hj : j < n) (hne : i ≠ j) :
    bucketAt b i ≠ bucketAt b j :=
  fun e => hne (head_injective hfits hi hj (congrArg KList.head e))

end

end Arrays

/-- In the family, the array of `n` buckets at `b` has the contents `c`. -/
structure Buckets (F : Family Address) (b : Address) (n : Nat) (c : Nat → List Address) : Prop where
  fits : Fits b n
  lists : ∀ i < n, F (bucketAt b i) = some (c i)

section BucketLemmas

variable {F : Family Address} {b : Address} {n i : Nat} {c : Nat → List Address}

/-- Changing one bucket. -/
theorem Buckets.put (h : Buckets F b n c) (hi : i < n) (xs : List Address) :
    Buckets (F.put (bucketAt b i) xs) b n (update c i xs) := by
  refine ⟨h.fits, ?_⟩
  intro j hj
  by_cases hji : j = i
  · subst hji
    rw [put_self, update_self]
  · rw [put_of_ne _ _ (bucketAt_ne h.fits hj hi hji), update_of_ne hji]
    exact h.lists j hj

/-- Changing one bucket leaves the elements at home. -/
theorem home_update {hash : Address → UInt64} {m : Nat} {xs : List Address}
    (h : ∀ j < n, ∀ e ∈ c j, homeOf hash m e = j) (hx : ∀ e ∈ xs, homeOf hash m e = i) :
    ∀ j < n, ∀ e ∈ update c i xs j, homeOf hash m e = j := by
  intro j hj e he
  by_cases hji : j = i
  · subst hji
    rw [update_self] at he
    exact hx e he
  · rw [update_of_ne hji] at he
    exact h j hj e he

/-- Changing another list. -/
theorem Buckets.put_other (h : Buckets F b n c) (hl : ∀ i < n, l ≠ bucketAt b i)
    (xs : List Address) :
    Buckets (F.put l xs) b n c := by
  refine ⟨h.fits, ?_⟩
  intro j hj
  rw [put_of_ne _ _ (hl j hj).symm]
  exact h.lists j hj

end BucketLemmas

/-! ## The representation -/

/-- The table in `s` has the contents `c`, in a family of lists `F` without other lists. -/
structure Holds (hash : Address → UInt64) (s : HashState) (c : Nat → List Address)
    (F : Family Address) : Prop where
  wf : WellFormed s.heap F
  buckets : Buckets F s.buckets s.bucketCnt c
  only : ∀ l xs, F l = some xs → ∃ i < s.bucketCnt, l = bucketAt s.buckets i
  size : ∃ k, 2 ≤ k ∧ s.bucketCnt = 2 ^ k
  home : ∀ i < s.bucketCnt, ∀ e ∈ c i, homeOf hash s.bucketCnt e = i

section Searching

variable {hash : Address → UInt64} {less : Address → Address → Bool} {s : HashState}
  {c : Nat → List Address} {F : Family Address} {vs : List Address} {Q : Unit → HashState → Prop}

theorem Holds.pos (h : Holds hash s c F) : 0 < s.bucketCnt := by
  obtain ⟨k, -, hk⟩ := h.size
  rw [hk]
  exact Nat.two_pow_pos k

theorem Holds.le (h : Holds hash s c F) : s.bucketCnt ≤ 2 ^ 64 := h.buckets.fits.le

theorem Holds.isList (h : Holds hash s c F) (hi : i < s.bucketCnt) :
    IsList s.heap (bucketAt s.buckets i) (c i) :=
  h.wf.isList _ _ (h.buckets.lists i hi)

/-- The headers of a bucket are nodes of no other list. -/
theorem Holds.headers_apart (h : Holds hash s c F) (j : Nat) (hj : j < s.bucketCnt)
    (l : KList Address) (ys : List Address) (hl : F l = some ys) (hne : l ≠ bucketAt s.buckets j) :
    (bucketAt s.buckets j).head ∉ nodes l ys ∧ (bucketAt s.buckets j).tail ∉ nodes l ys := by
  have hapart := h.wf.apart l _ ys _ hl (h.buckets.lists j hj) hne
  exact ⟨fun hx => hapart hx (head_mem_nodes _ _), fun hx => hapart hx (tail_mem_nodes _ _)⟩

theorem wp_findBucket (hpos : 0 < s.bucketCnt) (hle : s.bucketCnt ≤ 2 ^ 64) (e : Address)
    (Q : KList Address → HashState → Prop) :
    wp (findBucket hash e) s Q ↔ Q (bucketAt s.buckets (homeOf hash s.bucketCnt e)) s := by
  simp only [findBucket, wp_bind, wp_get, wp_pure, pred_mod hpos hle, homeOf]

theorem wp_findElemFrom (hl : IsList s.heap l (us ++ vs)) (hfuel : vs.length < fuel) (e : Address)
    (Q : Option Address → HashState → Prop) :
    wp (findElemFrom less l e fuel (some (firstOf l vs))) s Q ↔
      Q (vs.find? fun x => equivBy less x e) s := by
  induction vs generalizing us fuel with
  | nil =>
    cases fuel with
    | zero => omega
    | succ fuel =>
      rw [findElemFrom, firstOf_nil, listEnd, if_pos rfl, wp_pure, List.find?_nil]
  | cons x vs ih =>
    cases fuel with
    | zero => omega
    | succ fuel =>
      rw [findElemFrom, firstOf_cons, if_neg hl.ne_end, wp_bind,
        wp_onHeap_read (wp_deref x)]
      cases hsame : equivBy less x e with
      | true =>
        have htest : (!less x e && !less e x) = true := hsame
        rw [if_pos htest, wp_pure, List.find?_cons, hsame]
      | false =>
        have htest : ¬ (!less x e && !less e x) = true := by
          rw [show (!less x e && !less e x) = false from hsame]
          exact Bool.false_ne_true
        rw [if_neg htest, wp_bind, wp_onHeap_read (wp_listNext (links_elem hl).2),
          List.find?_cons, hsame]
        exact ih hl.shift (Nat.lt_of_succ_lt_succ hfuel)

/-- `find_elem` in the bucket `i`. -/
theorem wp_findElem (h : Holds hash s c F) (hi : i < s.bucketCnt) (e : Address)
    (Q : Option Address → HashState → Prop) :
    wp (findElem less (bucketAt s.buckets i) e) s Q ↔
      Q ((c i).find? fun x => equivBy less x e) s := by
  have hl := h.isList hi
  have hl' : IsList s.heap (bucketAt s.buckets i) ([] ++ c i) := hl
  rw [findElem, wp_bind, listBegin, wp_onHeap_read (wp_readNext _), hl.joined_head.1]
  exact wp_findElemFrom hl' (length_lt hl) e Q

/-! ## Insertion and removal -/

theorem wp_insertElem (h : Holds hash s c F) (hfree : Free F e)
    (hQ : ∀ heap, let i := homeOf hash s.bucketCnt e
      let s' := { s with elemCnt := (s.elemCnt + 1) % 2 ^ 64, heap := heap }
      Holds hash s' (update c i (e :: c i)) (F.put (bucketAt s.buckets i) (e :: c i)) →
        Q () s') :
    wp (insertElem (bucketAt s.buckets (homeOf hash s.bucketCnt e)) e) s Q := by
  have hi := homeOf_lt hash h.pos e
  rw [insertElem, wp_bind, wp_modify, wp_onHeap]
  refine wp_mono (wp_listPushFront h.wf (h.buckets.lists _ hi) hfree) ?_
  intro _ heap hwf
  refine hQ heap ⟨hwf, h.buckets.put hi _, fun l xs hl => ?_, h.size,
    home_update h.home (List.forall_mem_cons.2 ⟨rfl, h.home _ hi⟩)⟩
  rcases of_put hl with ⟨rfl, rfl⟩ | ⟨-, hl⟩
  · exact ⟨_, hi, rfl⟩
  · exact h.only l xs hl

theorem wp_removeElem (h : Holds hash s c F) (hi : i < s.bucketCnt) (hc : c i = us ++ e :: vs)
    (hQ : ∀ heap, let s' := { s with elemCnt := (s.elemCnt + 2 ^ 64 - 1) % 2 ^ 64, heap := heap }
      let F' := F.put (bucketAt s.buckets i) (us ++ vs)
      Holds hash s' (update c i (us ++ vs)) F' → Free F' e → Q () s') :
    wp (removeElem e) s Q := by
  have hl := h.buckets.lists i hi
  rw [hc] at hl
  rw [removeElem, wp_bind, wp_modify, wp_bind, wp_onHeap]
  refine wp_mono (wp_listRemove h.wf hl) ?_
  rintro - heap ⟨-, hwf, hfree⟩
  rw [wp_pure]
  have hsub : us ++ vs ⊆ c i := hc ▸ ((List.sublist_cons_self e vs).append_left us).subset
  refine hQ heap ⟨hwf, h.buckets.put hi _, fun l xs hl' => ?_, h.size,
    home_update h.home fun x hx => h.home i hi x (hsub hx)⟩ hfree
  rcases of_put hl' with ⟨rfl, rfl⟩ | ⟨-, hl'⟩
  · exact ⟨_, hi, rfl⟩
  · exact h.only l xs hl'

end Searching

/-! ## Moving to a new array -/

/-- The table in `s` has a new array with the contents `nc`; the array at `ob` of `on` buckets, with
the contents `oc`, is still in use. -/
structure Moving (hash : Address → UInt64) (s : HashState) (F : Family Address) (ob : Address)
    (on : Nat) (oc nc : Nat → List Address) : Prop where
  wf : WellFormed s.heap F
  old : Buckets F ob on oc
  new : Buckets F s.buckets s.bucketCnt nc
  only : ∀ l xs, F l = some xs →
    (∃ i < on, l = bucketAt ob i) ∨ ∃ j < s.bucketCnt, l = bucketAt s.buckets j
  apart : ∀ i < on, ∀ j < s.bucketCnt, bucketAt ob i ≠ bucketAt s.buckets j
  pos : 0 < s.bucketCnt
  home : ∀ j < s.bucketCnt, ∀ e ∈ nc j, homeOf hash s.bucketCnt e = j

section Rehash

variable {hash : Address → UInt64} {s : HashState} {F : Family Address} {ob : Address} {on : Nat}
  {oc nc : Nat → List Address} {xs : List Address} {F' : Family Address} {j : Nat} {b : Address}
  {c : Nat → List Address} {heap : Heap Address} {destructor : Address → HashM Unit} {x : Address}

/-- The lists after the first element of an old bucket has been moved. -/
theorem Moving.moved (h : Moving hash s F ob on oc nc) (hi : i < on) {m : List Address}
    (hF' : F' = (F.put (bucketAt ob i) xs).put
      (bucketAt s.buckets (homeOf hash s.bucketCnt e)) (e :: nc (homeOf hash s.bucketCnt e)))
    (hwf : WellFormed heap F') :
    Moving hash { s with heap := heap, moved := m } F' ob on (update oc i xs)
      (update nc (homeOf hash s.bucketCnt e) (e :: nc (homeOf hash s.bucketCnt e))) := by
  have hj := homeOf_lt hash h.pos e
  subst hF'
  refine ⟨hwf, ?_, ?_, ?_, h.apart, h.pos,
    home_update h.home (List.forall_mem_cons.2 ⟨rfl, h.home _ hj⟩)⟩
  · exact (h.old.put hi xs).put_other (fun i' hi' => (h.apart i' hi' _ hj).symm) _
  · exact (h.new.put_other (fun j' hj' => h.apart i hi j' hj') xs).put hj _
  · intro l ys hl
    rcases of_put hl with ⟨rfl, rfl⟩ | ⟨-, hl⟩
    · exact .inr ⟨_, hj, rfl⟩
    · rcases of_put hl with ⟨rfl, rfl⟩ | ⟨-, hl⟩
      · exact .inl ⟨i, hi, rfl⟩
      · exact h.only l ys hl

/-- The inner loop empties an old bucket. -/
theorem wp_moveElems (h : Moving hash s F ob on oc nc) (hi : i < on) (hc : oc i = xs)
    (hfuel : xs.length < fuel) :
    wp (moveElems hash (bucketAt ob i) fuel (some (firstOf (bucketAt ob i) xs))) s fun _ s' =>
      ∃ heap F' nc', s' = { s with heap := heap, moved := s.moved ++ xs } ∧
        Moving hash s' F' ob on (update oc i []) nc' ∧
        ∀ j x, x ∈ nc' j ↔ x ∈ nc j ∨ (x ∈ xs ∧ homeOf hash s.bucketCnt x = j) := by
  induction xs generalizing s F oc nc fuel with
  | nil =>
    cases fuel with
    | zero => omega
    | succ fuel =>
      rw [moveElems, firstOf_nil, listEnd, if_pos rfl, wp_pure]
      refine ⟨s.heap, F, nc, by rw [List.append_nil], ?_, by simp⟩
      rw [← hc, update_eq_self]
      exact h
  | cons e xs ih =>
    cases fuel with
    | zero => omega
    | succ fuel =>
      have hold : F (bucketAt ob i) = some ([] ++ e :: xs) := by rw [h.old.lists i hi, hc]; rfl
      have hl := h.wf.isList _ _ hold
      have hj := homeOf_lt hash h.pos e
      rw [moveElems, firstOf_cons, if_neg hl.ne_end, wp_bind,
        wp_onHeap_read (wp_deref e), wp_bind, wp_findBucket h.pos h.new.fits.le, wp_bind,
        wp_onHeap_read (wp_listNext (links_elem hl).2), wp_bind, wp_onHeap]
      refine wp_mono (wp_listRemove h.wf hold) ?_
      rintro - heap₁ ⟨-, hwf₁, hfree⟩
      have hnew : F.put (bucketAt ob i) ([] ++ xs) (bucketAt s.buckets (homeOf hash s.bucketCnt e))
          = some (nc (homeOf hash s.bucketCnt e)) := by
        rw [put_of_ne _ _ (h.apart i hi _ hj).symm]
        exact h.new.lists _ hj
      rw [wp_bind, wp_onHeap]
      refine wp_mono (wp_listPushFront hwf₁ hnew hfree) ?_
      intro _ heap₂ hwf₂
      have hmoved : Moving hash { s with heap := heap₂, moved := s.moved ++ [e] } _ ob on
          (update oc i xs) _ := h.moved hi rfl hwf₂
      refine wp_mono (ih hmoved (update_self ..) (Nat.lt_of_succ_lt_succ hfuel)) ?_
      rintro - s' ⟨heap, F', nc', rfl, hmov, hmem⟩
      refine ⟨heap, F', nc', by simp, ?_, ?_⟩
      · rw [update_idem] at hmov
        exact hmov
      · intro j x
        rw [hmem j x]
        -- only the bucket that `e` belongs to has gained an element
        by_cases hje : j = homeOf hash s.bucketCnt e
        · subst hje
          simp only [update_self, List.mem_cons]
          constructor
          · rintro ((rfl | hx) | ⟨hx, hx'⟩)
            · exact .inr ⟨.inl rfl, rfl⟩
            · exact .inl hx
            · exact .inr ⟨.inr hx, hx'⟩
          · rintro (hx | ⟨rfl | hx, hx'⟩)
            · exact .inl (.inr hx)
            · exact .inl (.inl rfl)
            · exact .inr ⟨hx, hx'⟩
        · rw [update_of_ne hje]
          simp only [List.mem_cons]
          constructor
          · rintro (hx | ⟨hx, hx'⟩)
            · exact .inl hx
            · exact .inr ⟨.inr hx, hx'⟩
          · rintro (hx | ⟨rfl | hx, hx'⟩)
            · exact .inl hx
            · exact absurd hx'.symm hje
            · exact .inr ⟨hx, hx'⟩

/-- The outer loop empties all old buckets, in order. -/
theorem wp_moveBuckets (h : Moving hash s F ob on oc fun _ => []) :
    wp ((List.range on).forM fun i => do
      moveElems hash (bucketAt ob i) loopBound (← onHeap (listBegin (bucketAt ob i)))) s
      fun _ s' => ∃ heap F' nc,
        s' = { s with heap := heap, moved := s.moved ++ (List.range on).flatMap oc } ∧
        Moving hash s' F' ob on (fun _ => []) nc ∧
        ∀ j x, x ∈ nc j ↔ homeOf hash s.bucketCnt x = j ∧ ∃ i < on, x ∈ oc i := by
  let I : Nat → HashState → Prop := fun i t => ∃ heap F' nc,
    t = { s with heap := heap, moved := s.moved ++ (List.range i).flatMap oc } ∧
    Moving hash t F' ob on (fun i' => if i' < i then [] else oc i') nc ∧
    ∀ j x, x ∈ nc j ↔ homeOf hash s.bucketCnt x = j ∧ ∃ i' < i, x ∈ oc i'
  have hstart : I 0 s := by
    refine ⟨s.heap, F, fun _ => [], by simp, ?_, by simp⟩
    exact h
  have hstep : ∀ i < on, ∀ t, I i t → wp (do
      moveElems hash (bucketAt ob i) loopBound (← onHeap (listBegin (bucketAt ob i)))) t
      fun _ t' => I (i + 1) t' := by
    rintro i hi t ⟨heap, F', nc, rfl, hmov, hmem⟩
    have hlists := hmov.old.lists i hi
    rw [if_neg (lt_irrefl i)] at hlists
    have hl := hmov.wf.isList _ _ hlists
    rw [wp_bind, listBegin, wp_onHeap_read (wp_readNext _), hl.joined_head.1]
    refine wp_mono (wp_moveElems hmov hi (if_neg (lt_irrefl i)) (length_lt hl)) ?_
    rintro - t' ⟨heap', F'', nc', rfl, hmov', hmem'⟩
    refine ⟨heap', F'', nc', ?_, ?_, ?_⟩
    · simp [List.range_succ]
    · have hoc : (fun i' => if i' < i + 1 then [] else oc i') =
          update (fun i' => if i' < i then [] else oc i') i [] := by
        funext i'
        by_cases hii : i' = i
        · subst hii
          rw [update_self, if_pos (Nat.lt_succ_self _)]
        · rw [update_of_ne hii]
          by_cases hlt : i' < i
          · rw [if_pos hlt, if_pos (Nat.lt_succ_of_lt hlt)]
          · rw [if_neg hlt, if_neg (by omega)]
      rw [hoc]
      exact hmov'
    · intro j x
      rw [hmem' j x, hmem j x]
      constructor
      · rintro (⟨hx, i', hi', hx'⟩ | ⟨hx, hx'⟩)
        · exact ⟨hx, i', Nat.lt_succ_of_lt hi', hx'⟩
        · exact ⟨hx', i, Nat.lt_succ_self i, hx⟩
      · rintro ⟨hx, i', hi', hx'⟩
        rcases Nat.lt_succ_iff_lt_or_eq.1 hi' with hi' | rfl
        · exact .inl ⟨hx, i', hi', hx'⟩
        · exact .inr ⟨hx', hx⟩
  refine wp_mono (wp_forM_range hstart hstep) ?_
  rintro - s' ⟨heap, F', nc, rfl, hmov, hmem⟩
  refine ⟨heap, F', nc, rfl, ⟨hmov.wf, ⟨hmov.old.fits, ?_⟩, hmov.new, hmov.only, hmov.apart,
    hmov.pos, hmov.home⟩, hmem⟩
  intro i hi
  rw [hmov.old.lists i hi, if_pos hi]

/-- The array of `n` buckets at `b` shares no node with the lists of the family. -/
structure FreshArray (F : Family Address) (b : Address) (n : Nat) : Prop where
  fits : Fits b n
  free : ∀ j < n, Free F (bucketAt b j).head ∧ Free F (bucketAt b j).tail

theorem FreshArray.ne_bucket (h : FreshArray F ob on) (hl : F l = some xs) (hj : j < on) :
    l ≠ bucketAt ob j := by
  rintro rfl
  exact (h.free j hj).1 _ xs hl (head_mem_nodes _ xs)

/-- The first `j` buckets at `b` are empty lists of `F'`; other lists are as in `F`. -/
structure Emptied (F F' : Family Address) (b : Address) (j : Nat) : Prop where
  empty : ∀ j' < j, F' (bucketAt b j') = some []
  rest : ∀ l, (∀ j' < j, l ≠ bucketAt b j') → F' l = F l

/-- `list_init` on the next bucket of an array, whatever that bucket was before. -/
theorem wp_listInit_bucket {h : Heap Address} (hfits : Fits b n) (hj : j < n)
    (hout : ∀ l ys, F l = some ys → l ≠ bucketAt b j →
      (bucketAt b j).head ∉ nodes l ys ∧ (bucketAt b j).tail ∉ nodes l ys) (hwf : WellFormed h F')
    (hempty : ∀ j' < j, F' (bucketAt b j') = some [])
    (hrest : ∀ l, (∀ j' < j + 1, l ≠ bucketAt b j') → F' l = F l) :
    wp (listInit (bucketAt b j)) h fun _ h' =>
      ∃ F'', WellFormed h' F'' ∧ Emptied F F'' b (j + 1) := by
  refine wp_mono (wp_listInit hwf (head_ne_tail hfits hj hj) ?_) ?_
  · intro l ys hl hne
    by_cases hold : ∃ j' < j, l = bucketAt b j'
    · -- an earlier bucket, which is empty
      obtain ⟨j', hj', rfl⟩ := hold
      have hjj : j' ≠ j := ne_of_lt hj'
      have hj'n := lt_trans hj' hj
      rw [hempty j' hj', Option.some.injEq] at hl
      subst hl
      simp only [nodes, List.cons_append, List.nil_append, List.mem_cons,
        List.not_mem_nil, or_false, not_or]
      exact ⟨⟨fun e => hjj (head_injective hfits hj hj'n e).symm, head_ne_tail hfits hj hj'n⟩,
        (head_ne_tail hfits hj'n hj).symm, fun e => hjj (tail_injective hfits hj hj'n e).symm⟩
    · have hother : ∀ j' < j + 1, l ≠ bucketAt b j' := by
        intro j' hj'
        rcases Nat.lt_succ_iff_lt_or_eq.1 hj' with hj' | rfl
        · exact fun e => hold ⟨j', hj', e⟩
        · exact hne
      rw [hrest l hother] at hl
      exact hout l ys hl hne
  · intro _ h' hwf'
    refine ⟨_, hwf', ?_, ?_⟩
    · intro j' hj'
      rcases Nat.lt_succ_iff_lt_or_eq.1 hj' with hj' | rfl
      · rw [put_of_ne _ _ (bucketAt_ne hfits (lt_trans hj' hj) hj (ne_of_lt hj'))]
        exact hempty j' hj'
      · rw [put_self]
    · intro l hl
      rw [put_of_ne _ _ (hl j (Nat.lt_succ_self j))]
      exact hrest l hl

/-- The new buckets are initialised as empty lists. -/
theorem wp_initBuckets (hwf : WellFormed s.heap F) (hfresh : FreshArray F b n) :
    wp ((List.range n).forM fun i => onHeap (listInit (bucketAt b i))) s fun _ s' =>
      ∃ heap F', s' = { s with heap := heap } ∧ WellFormed heap F' ∧ Emptied F F' b n := by
  refine wp_forM_range (I := fun j t => ∃ heap F', t = { s with heap := heap } ∧
    WellFormed heap F' ∧ Emptied F F' b j) ⟨s.heap, F, rfl, hwf, by simp, by simp⟩ ?_
  rintro j hj t ⟨heap, F', rfl, hwf', hemptied⟩
  rw [wp_onHeap]
  refine wp_mono (wp_listInit_bucket (F := F) hfresh.fits hj ?_ hwf' hemptied.empty ?_) ?_
  · intro l ys hl _
    exact ⟨(hfresh.free j hj).1 l ys hl, (hfresh.free j hj).2 l ys hl⟩
  · exact fun l hl => hemptied.rest l fun j' hj' => hl j' (Nat.lt_succ_of_lt hj')
  · rintro - heap' ⟨F'', hwf'', hemptied'⟩
    exact ⟨heap', F'', rfl, hwf'', hemptied'⟩

/-- What a destructor may change: memory that is no node of the family, and the element itself,
which it may deallocate. -/
structure Spares (F : Family Address) (e : Address) (t t' : HashState) : Prop where
  rest : ∃ heap m, t' = { t with heap := heap, mallocResult := m }
  nodes : ∀ x, ¬ Free F x → x ≠ e → t'.heap x = t.heap x

/-- A destructor that returns and spares the table. -/
def Sparing (F : Family Address) (destructor : Address → HashM Unit) : Prop :=
  ∀ e t, wp (destructor e) t fun _ t' => Spares F e t t'

theorem Sparing.mono (h : Sparing F destructor) (hfree : ∀ x, Free F x → Free F' x) :
    Sparing F' destructor := by
  intro e t
  refine wp_mono (h e t) ?_
  rintro - t' ⟨hrest, hnodes⟩
  exact ⟨hrest, fun x hx => hnodes x fun hF => hx (hfree x hF)⟩

/-- Taking elements out of a list leaves free what was free. -/
theorem Free.put (h : Free F x) (hl : F l = some (us ++ xs)) :
    Free (F.put l xs) x := by
  intro l' ys hl' hmem
  rcases of_put hl' with ⟨rfl, rfl⟩ | ⟨-, hl'⟩
  · refine h l _ hl ?_
    simp only [nodes, List.cons_append, List.mem_cons, List.mem_append] at hmem ⊢
    tauto
  · exact h l' ys hl' hmem

/-- Emptying buckets leaves free what was free. -/
theorem Emptied.free (h : Emptied F F' b j) (hlists : ∀ i < j, F (bucketAt b i) = some (c i))
    (hx : Free F x) : Free F' x := by
  intro l ys hl hmem
  by_cases hold : ∃ i < j, l = bucketAt b i
  · obtain ⟨i, hi, rfl⟩ := hold
    rw [h.empty i hi, Option.some.injEq] at hl
    subst hl
    refine hx _ _ (hlists i hi) ?_
    simp only [nodes, List.cons_append, List.nil_append, List.mem_cons, List.mem_append] at hmem ⊢
    tauto
  · rw [h.rest l fun i hi e => hold ⟨i, hi, e⟩] at hl
    exact hx l ys hl hmem

/-- The loop that gives the elements of a bucket to the destructor empties it. -/
theorem wp_destroyElems (hwf : WellFormed s.heap F) (hl : F l = some xs)
    (hd : Sparing F destructor) (hfuel : xs.length < fuel) :
    wp (destroyElems destructor l fuel) s fun _ s' => ∃ heap m,
      s' = { s with heap := heap, mallocResult := m } ∧ WellFormed heap (F.put l []) := by
  induction xs generalizing s F fuel with
  | nil =>
    cases fuel with
    | zero => omega
    | succ fuel =>
      rw [destroyElems, wp_bind, wp_onHeap_read (wp_listEmpty hwf hl), if_pos List.isEmpty_nil,
        wp_pure]
      refine ⟨s.heap, s.mallocResult, rfl, ?_⟩
      rw [put_eq_self hl]
      exact hwf
  | cons e xs ih =>
    cases fuel with
    | zero => omega
    | succ fuel =>
      have hl' : F l = some ([e] ++ xs) := hl
      have hd' : Sparing (F.put l xs) destructor := hd.mono fun x hx => Free.put hx hl'
      rw [destroyElems, wp_bind, wp_onHeap_read (wp_listEmpty hwf hl), List.isEmpty_cons,
        if_neg Bool.false_ne_true, wp_bind, wp_onHeap, wp_bind]
      refine wp_mono (wp_listPopFront hwf hl) ?_
      rintro - heap ⟨rfl, hwf', hfree⟩
      rw [wp_deref, wp_bind]
      refine wp_mono (hd' e _) ?_
      rintro - t ⟨⟨heap₂, m₂, rfl⟩, hnodes⟩
      -- the element is no node of the lists any more, so the destructor has changed none of them
      have hwf₂ : WellFormed heap₂ (F.put l xs) :=
        hwf'.frame fun x hx => hnodes x hx fun hxe => hx (hxe ▸ hfree)
      refine wp_mono (ih (s := { s with heap := heap₂, mallocResult := m₂ }) hwf₂ (put_self ..) hd'
        (Nat.lt_of_succ_lt_succ hfuel)) ?_
      rintro - s' ⟨heap₃, m₃, rfl, hwf₃⟩
      rw [put_put] at hwf₃
      exact ⟨heap₃, m₃, rfl, hwf₃⟩

section

variable (hwf : WellFormed s.heap F) (hfits : Fits s.buckets s.bucketCnt)
  (hout : ∀ j < s.bucketCnt, ∀ l ys, F l = some ys → l ≠ bucketAt s.buckets j →
    (bucketAt s.buckets j).head ∉ nodes l ys ∧ (bucketAt s.buckets j).tail ∉ nodes l ys)
include hwf hfits hout

/-- `hash_clear` makes every bucket of an array an empty list. The headers may not be nodes of
other lists; with a destructor the buckets must be lists, and their elements are given to it. -/
theorem wp_hashClear {destructor : Option (Address → HashM Unit)}
    (hd : ∀ d, destructor = some d →
      Sparing F d ∧ ∀ j < s.bucketCnt, F (bucketAt s.buckets j) = some (c j)) :
    wp (hashClear destructor) s fun _ s' => ∃ heap m F',
      s' = { s with heap := heap, mallocResult := m, elemCnt := 0 } ∧
        WellFormed heap F' ∧ Emptied F F' s.buckets s.bucketCnt := by
  rw [hashClear, wp_bind, wp_get, wp_bind]
  refine wp_mono (wp_forM_range (I := fun j t => ∃ heap m F',
    t = { s with heap := heap, mallocResult := m } ∧ WellFormed heap F' ∧ Emptied F F' s.buckets j)
    ⟨s.heap, s.mallocResult, F, rfl, hwf, by simp, by simp⟩ ?_) ?_
  · rintro j hj t ⟨heap, m, F', rfl, hwf', hemptied⟩
    cases destructor with
    | none =>
      rw [clearBucket, wp_onHeap]
      refine wp_mono (wp_listInit_bucket hfits hj (hout j hj) hwf' hemptied.empty
        fun l hl => hemptied.rest l fun j' hj' => hl j' (Nat.lt_succ_of_lt hj')) ?_
      rintro - heap' ⟨F'', hwf'', hemptied'⟩
      exact ⟨heap', m, F'', rfl, hwf'', hemptied'⟩
    | some destroy =>
      obtain ⟨hspare, hlists⟩ := hd destroy rfl
      have hbucket : F' (bucketAt s.buckets j) = some (c j) := by
        rw [hemptied.rest _ fun j' hj' =>
          bucketAt_ne hfits hj (lt_trans hj' hj) (ne_of_gt hj')]
        exact hlists j hj
      have hspare' : Sparing F' destroy :=
        hspare.mono fun x hx => hemptied.free (fun i hi => hlists i (lt_trans hi hj)) hx
      rw [clearBucket, wp_bind]
      refine wp_mono (wp_destroyElems hwf' hbucket hspare'
        (length_lt (hwf'.isList _ _ hbucket))) ?_
      rintro - t' ⟨heap', m', rfl, hwf''⟩
      rw [wp_onHeap]
      refine wp_mono (wp_listInit_bucket hfits hj (hout j hj) hwf'' ?_ ?_) ?_
      · intro j' hj'
        rw [put_of_ne _ _ (bucketAt_ne hfits (lt_trans hj' hj) hj (Nat.ne_of_lt hj'))]
        exact hemptied.empty j' hj'
      · intro l hl
        rw [put_of_ne _ _ (hl j (Nat.lt_succ_self j))]
        exact hemptied.rest l fun j' hj' => hl j' (Nat.lt_succ_of_lt hj')
      · rintro - heap₂ ⟨F₂, hwf₂, hemptied'⟩
        exact ⟨heap₂, m', F₂, rfl, hwf₂, hemptied'⟩
  · rintro - s' ⟨heap, m, F', rfl, hwf', hemptied⟩
    rw [wp_modify]
    exact ⟨heap, m, F', rfl, hwf', hemptied⟩

end

/-- What `malloc` returns is memory that the lists of the family do not use. -/
def MallocFresh (F : Family Address) (mallocResult : Nat → Option Address) : Prop :=
  ∀ size b, mallocResult size = some b → ∀ n, sizeofList * n ≤ size → FreshArray F b n

/-- The lists before the first element is moved. -/
theorem Holds.moving (h : Holds hash s c F) (hn : 0 < n) (hfresh : FreshArray F b n)
    (hwf : WellFormed heap F') (hemptied : Emptied F F' b n) :
    Moving hash { s with heap := heap, buckets := b, bucketCnt := n } F' s.buckets s.bucketCnt c
      fun _ => [] := by
  have hapart : ∀ i < s.bucketCnt, ∀ j < n, bucketAt s.buckets i ≠ bucketAt b j :=
    fun i hi j hj => hfresh.ne_bucket (h.buckets.lists i hi) hj
  refine ⟨hwf, ⟨h.buckets.fits, ?_⟩, ⟨hfresh.fits, hemptied.empty⟩, ?_, hapart, hn, by simp⟩
  · intro i hi
    rw [hemptied.rest _ (hapart i hi)]
    exact h.buckets.lists i hi
  · intro l xs hl
    by_cases hb : ∃ j < n, l = bucketAt b j
    · exact .inr hb
    · rw [hemptied.rest l fun j hj e => hb ⟨j, hj, e⟩] at hl
      exact .inl (h.only l xs hl)

/-- Once the old buckets are empty, the new ones are the table. -/
theorem Moving.holds (h : Moving hash s F ob on (fun _ => []) nc)
    (hsize : ∃ k, 2 ≤ k ∧ s.bucketCnt = 2 ^ k) (hmem : ∀ j x, x ∈ nc j ↔
      homeOf hash s.bucketCnt x = j ∧ ∃ i < on, x ∈ c i) :
    ∃ F', Holds hash s nc F' ∧
      ∀ x, (∃ j < s.bucketCnt, x ∈ nc j) ↔ ∃ i < on, x ∈ c i := by
  let F' : Family Address :=
    fun l => if ∃ j < s.bucketCnt, l = bucketAt s.buckets j then F l else none
  have hsub : ∀ l xs, F' l = some xs → F l = some xs ∧
      ∃ j < s.bucketCnt, l = bucketAt s.buckets j := by
    intro l xs hl
    by_cases hb : ∃ j < s.bucketCnt, l = bucketAt s.buckets j
    · exact ⟨(if_pos hb).symm.trans hl, hb⟩
    · have hnone : F' l = none := if_neg hb
      rw [hnone] at hl
      cases hl
  refine ⟨F', ⟨h.wf.mono fun l xs hl => (hsub l xs hl).1, ⟨h.new.fits, ?_⟩,
    fun l xs hl => (hsub l xs hl).2, hsize, h.home⟩, ?_⟩
  · intro j hj
    have hin : F' (bucketAt s.buckets j) = F (bucketAt s.buckets j) := if_pos ⟨j, hj, rfl⟩
    rw [hin]
    exact h.new.lists j hj
  · intro x
    constructor
    · rintro ⟨j, -, hx⟩
      exact ((hmem j x).1 hx).2
    · intro hx
      exact ⟨homeOf hash s.bucketCnt x, homeOf_lt hash h.pos x, (hmem _ x).2 ⟨rfl, hx⟩⟩

/-- The elements of a table, bucket by bucket, are all different. -/
theorem Holds.nodup (h : Holds hash s c F) :
    ((List.range s.bucketCnt).flatMap c).Nodup := by
  rw [List.nodup_flatMap]
  constructor
  · intro i hi
    have hnd := (h.isList (List.mem_range.1 hi)).nodup
    rw [nodes, List.cons_append, List.nodup_cons] at hnd
    exact (List.nodup_append.1 hnd.2).1
  · refine List.Pairwise.imp_of_mem ?_ (List.nodup_range (n := s.bucketCnt))
    intro i j hi hj hne x hx hx'
    have hi' := List.mem_range.1 hi
    have hj' := List.mem_range.1 hj
    exact h.wf.apart _ _ _ _ (h.buckets.lists i hi') (h.buckets.lists j hj')
      (bucketAt_ne h.buckets.fits hi' hj' hne) (mem_nodes_of_mem hx) (mem_nodes_of_mem hx')

/-- The buckets that `rehash` wants are those that there are, or memory can be obtained for them. -/
def Resizes (s : HashState) (n : Nat) : Prop :=
  n = s.bucketCnt ∨ sizeofList * n % 2 ^ 64 ≠ 0 ∧ s.mallocResult (sizeofList * n % 2 ^ 64) ≠ none

/-- `rehash` moves the elements: it aims at another number of buckets and gets memory for them. -/
def Moves (s : HashState) (n : Nat) : Prop :=
  n ≠ s.bucketCnt ∧ sizeofList * n % 2 ^ 64 ≠ 0 ∧ s.mallocResult (sizeofList * n % 2 ^ 64) ≠ none

/-- The array of buckets is the old one, and nothing has moved. -/
def Kept (s s' : HashState) : Prop :=
  s'.bucketCnt = s.bucketCnt ∧ s'.buckets = s.buckets ∧ s'.moved = s.moved

/-- What `rehash` does when it aims at `n` buckets for the elements in `E`: it moves each of them
once into an array of that size, or leaves all of them where they are. -/
structure Rehashed (n : Nat) (E : Address → Prop) (s s' : HashState) : Prop where
  moves : Moves s n → s'.bucketCnt = n ∧
    s.mallocResult (sizeofList * n % 2 ^ 64) = some s'.buckets ∧
    ∃ l, s'.moved = s.moved ++ l ∧ l.Nodup ∧ ∀ x, x ∈ l ↔ E x
  stays : ¬ Moves s n → Kept s s'

/-- The table keeps its elements over a `rehash` and is a table again. -/
theorem wp_rehash (h : Holds hash s c F) (hcnt : s.elemCnt < 2 ^ 64)
    (hmalloc : MallocFresh F s.mallocResult) :
    wp (rehash hash) s fun _ s' => (∃ c' F', Holds hash s' c' F' ∧
        ∀ x, (∃ i < s'.bucketCnt, x ∈ c' i) ↔ ∃ i < s.bucketCnt, x ∈ c i) ∧
      s'.elemCnt = s.elemCnt ∧
      Rehashed (bucketGoal s.elemCnt) (fun x => ∃ i < s.bucketCnt, x ∈ c i) s s' := by
  obtain ⟨k, hk, hgoal⟩ := bucketGoal_size s.elemCnt
  have hstay : ¬ Moves s (2 ^ k) → (∃ c' F', Holds hash s c' F' ∧
        ∀ x, (∃ i < s.bucketCnt, x ∈ c' i) ↔ ∃ i < s.bucketCnt, x ∈ c i) ∧
      s.elemCnt = s.elemCnt ∧
      Rehashed (2 ^ k) (fun x => ∃ i < s.bucketCnt, x ∈ c i) s s := fun hno =>
    ⟨⟨c, F, h, fun _ => Iff.rfl⟩, rfl, fun hm => absurd hm hno, fun _ => ⟨rfl, rfl, rfl⟩⟩
  rw [rehash, wp_bind, wp_get, wp_bind, wp_newBucketCnt hcnt, hgoal]
  by_cases hsame : 2 ^ k = s.bucketCnt
  · rw [if_pos hsame, wp_pure]
    exact hstay fun hm => hm.1 hsame
  · rw [if_neg hsame, wp_bind, malloc]
    by_cases hzero : sizeofList * 2 ^ k % 2 ^ 64 = 0
    · -- a request of 2 ^ 64 bytes or more is one of zero bytes
      rw [if_pos hzero, wp_pure]
      exact (wp_pure _ _ _).2 (hstay fun hm => hm.2.1 hzero)
    · have hexact : sizeofList * 2 ^ k % 2 ^ 64 = sizeofList * 2 ^ k := by
        have h32 : sizeofList * 2 ^ k = 2 ^ (k + 5) := by
          rw [sizeofList, pow_add, mul_comm]
          rfl
        have hlt : k + 5 < 64 := by
          by_contra hge
          rw [h32, show k + 5 = 64 + (k + 5 - 64) by omega, pow_add, Nat.mul_mod_right] at hzero
          exact hzero rfl
        rw [h32]
        exact Nat.mod_eq_of_lt (Nat.pow_lt_pow_right (by norm_num) hlt)
      rw [if_neg hzero, wp_bind, wp_get, wp_pure]
      cases hres : s.mallocResult (sizeofList * 2 ^ k % 2 ^ 64) with
      | none => exact (wp_pure _ _ _).2 (hstay fun hm => hm.2.2 hres)
      | some b =>
        have hfresh := hmalloc _ b hres (2 ^ k) (le_of_eq hexact.symm)
        rw [wp_bind]
        refine wp_mono (wp_initBuckets h.wf hfresh) ?_
        rintro - s₁ ⟨heap₁, F₁, rfl, hwf₁, hemptied⟩
        refine wp_mono (wp_moveBuckets
          (h.moving (Nat.two_pow_pos k) hfresh hwf₁ hemptied)) ?_
        rintro - s₂ ⟨heap₂, F₂, nc, rfl, hmov, hmem⟩
        obtain ⟨F₃, hholds, helems⟩ := hmov.holds ⟨k, hk, rfl⟩ hmem
        refine ⟨⟨nc, F₃, hholds, helems⟩, rfl,
          fun _ => ⟨rfl, hres, _, rfl, h.nodup, fun x => ?_⟩, fun hno => ?_⟩
        · simp only [List.mem_flatMap, List.mem_range]
        · exact absurd ⟨hsame, hzero, hres ▸ Option.some_ne_none b⟩ hno

end Rehash

/-- The bucket count that `rehash` computes is the largest power of two not above `max 4 (elemCnt /
2)`, for every 64-bit number of elements. A table that `rehash` can give this size has between two
and four elements in a bucket on average, from eight elements on, and the next `rehash` does
nothing. -/
theorem rehash_sizing :
    (∀ (elemCnt : Nat) (s : HashState), elemCnt < 2 ^ 64 →
      ∃ k, newBucketCnt elemCnt s = .ok (2 ^ k, s) ∧
        2 ^ k ≤ max 4 (elemCnt / 2) ∧ max 4 (elemCnt / 2) < 2 ^ (k + 1)) ∧
    ∀ (hash : Address → UInt64) (s : HashState) (c : Nat → List Address) (F : Family Address),
      Holds hash s c F → s.elemCnt < 2 ^ 64 → MallocFresh F s.mallocResult →
      ∃ n s', newBucketCnt s.elemCnt s = .ok (n, s) ∧ rehash hash s = .ok ((), s') ∧
        s'.elemCnt = s.elemCnt ∧
        (Resizes s n → s'.bucketCnt = n ∧
          (8 ≤ s'.elemCnt → s'.bucketCnt ≤ s'.elemCnt / 2 ∧ s'.elemCnt / 2 < 2 * s'.bucketCnt) ∧
          rehash hash s' = .ok ((), s')) := by
  have hlo : ∀ n : Nat, bucketGoal n ≤ max 4 (n / 2) := fun n => Nat.log2_self_le (by omega)
  have hhi : ∀ n : Nat, max 4 (n / 2) < 2 ^ ((max 4 (n / 2)).log2 + 1) := fun n => Nat.lt_log2_self
  refine ⟨fun elemCnt s h => ⟨_, newBucketCnt_eq h s, hlo elemCnt, hhi elemCnt⟩, ?_⟩
  intro hash s c F hholds hcnt hfresh
  obtain ⟨⟨⟩, s', hrun, -, helem, hrehashed⟩ := wp_rehash hholds hcnt hfresh
  refine ⟨_, s', newBucketCnt_eq hcnt s, hrun, helem, fun hr => ?_⟩
  have hcnt' : s'.bucketCnt = bucketGoal s.elemCnt := by
    by_cases hm : Moves s (bucketGoal s.elemCnt)
    · exact (hrehashed.moves hm).1
    · rw [(hrehashed.stays hm).1]
      by_contra hne
      exact hm ⟨Ne.symm hne, hr.resolve_left (Ne.symm hne)⟩
  refine ⟨hcnt', ?_, ?_⟩
  · have hlo := hlo s.elemCnt
    have hhi := hhi s.elemCnt
    rw [pow_succ] at hhi
    rw [hcnt', helem]
    change max 4 (s.elemCnt / 2) < bucketGoal s.elemCnt * 2 at hhi
    omega
  · -- the same number of elements asks for the same number of buckets
    have hget : (get : HashM HashState) s' = .ok (s', s') := rfl
    have hnew := newBucketCnt_eq (helem ▸ hcnt) s'
    rw [rehash, bind_eq_of_ok hget, bind_eq_of_ok hnew, helem, if_pos hcnt'.symm]
    rfl

end Pintos.LibKernel.HashTable
