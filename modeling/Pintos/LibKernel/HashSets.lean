import Pintos.LibKernel.HashTable

/-!
# Hash tables refine finite sets

To its user a hash table is a finite set of elements of which no two are equivalent, two elements
being equivalent when neither is less than the other. `Represents` relates a table to its set;
`Call.after` is what a call does to the set, given its result, and `Answer` says which result the
set determines. `Reaches` are the tables that sequences of calls lead to, with the sets that go
with them, and `hash_refines` says that they stay in step.

The memory that the table works on is shared with its user: an element that is inserted must not
be one of the list headers in the bucket array, and `malloc` returns memory that the table and the
element do not use (`Call.Allowed`). Between calls the user may do anything to nodes that are not
part of the table.
-/

set_option autoImplicit false

namespace Pintos.LibKernel.HashSets

open Function Lib.StateExcept Lib.LinkedNodes Finset
open Lib.StableSort (StrictWeak equivBy equivBy_self equivBy_symm equivBy_of_class equivBy_iff)
open ListFamily ListLaws
open LibKernel.Hash HashTable

/-! ## Sets of inequivalent elements -/

/-- The result of a search for `e` in the set `S`. -/
def Found (less : Address → Address → Bool) (S : Finset Address) (e : Address) :
    Option Address → Prop
  | some x => x ∈ S ∧ equivBy less x e = true
  | none => ∀ x ∈ S, equivBy less x e = false

/-- A call on a table. -/
inductive Call where
  | insert (new : Address)
  | replace (new : Address)
  | find (e : Address)
  | delete (e : Address)
  | clear (destructor : Option (Address → HashM Unit))

/-- The call as code; `hash_clear` has no result. -/
def Call.exec (hash : Address → UInt64) (less : Address → Address → Bool) :
    Call → HashM (Option Address)
  | .insert new => hashInsert hash less new
  | .replace new => hashReplace hash less new
  | .find e => hashFind hash less e
  | .delete e => hashDelete hash less e
  | .clear destructor => do
    hashClear destructor
    return none

/-- The result that the set determines. -/
def Call.Answer (less : Address → Address → Bool) (S : Finset Address) (r : Option Address) :
    Call → Prop
  | .insert new => Found less S new r
  | .replace new => Found less S new r
  | .find e => Found less S e r
  | .delete e => Found less S e r
  | .clear _ => r = none

/-- The set without the element that a search has found. -/
def without (S : Finset Address) : Option Address → Finset Address
  | some x => S.erase x
  | none => S

/-- The set after a call that returned `r`. -/
def Call.after (S : Finset Address) (r : Option Address) : Call → Finset Address
  | .insert new => if r = none then Insert.insert new S else S
  | .replace new => Insert.insert new (without S r)
  | .find _ => S
  | .delete _ => without S r
  | .clear _ => ∅

/-! ## Memory -/

/-- The node is not a header of the table's bucket array. -/
def NotHeader (s : HashState) (x : Address) : Prop :=
  ∀ i < s.bucketCnt, x ≠ (bucketAt s.buckets i).head ∧ x ≠ (bucketAt s.buckets i).tail

/-- The node is not part of a table with the elements `S`. -/
def Outside (s : HashState) (S : Finset Address) (x : Address) : Prop := x ∉ S ∧ NotHeader s x

/-- Arrays in memory that `malloc` returns are not part of the table. -/
def MallocOutside (s : HashState) (S : Finset Address) (mallocResult : Nat → Option Address) :
    Prop :=
  ∀ size b, mallocResult size = some b → ∀ n, sizeofList * n ≤ size → Fits b n ∧
    ∀ j < n, Outside s S (bucketAt b j).head ∧ Outside s S (bucketAt b j).tail

/-- A destructor that returns and changes nothing but the element that it is given and nodes that
are not part of the table. -/
def SparesTable (s : HashState) (S : Finset Address) (destructor : Address → HashM Unit) : Prop :=
  ∀ e t, wp (destructor e) t fun _ t' =>
    (∃ heap m, t' = { t with heap := heap, mallocResult := m }) ∧
      ∀ x, ¬ Outside s S x → x ≠ e → t'.heap x = t.heap x

/-- The conditions on the caller and on memory allocation under which a call may be made. -/
def Call.Allowed (s : HashState) (S : Finset Address) : Call → Prop
  | .insert new => NotHeader s new ∧ MallocOutside s (Insert.insert new S) s.mallocResult
  | .replace new => NotHeader s new ∧ MallocOutside s (Insert.insert new S) s.mallocResult
  | .delete _ => MallocOutside s S s.mallocResult
  | .find _ => True
  | .clear destructor => ∀ d, destructor = some d → SparesTable s S d

/-- The tables that sequences of calls lead to, with their sets: after `hash_init`; after a call;
after `malloc` has come to give other results, and other nodes have changed. -/
inductive Reaches (hash : Address → UInt64) (less : Address → Address → Bool) :
    HashState → Finset Address → Prop where
  | init {s₀ s : HashState} : (∀ size b, s₀.mallocResult size = some b →
      Fits b (size / sizeofList)) → hashInit s₀ = .ok (true, s) → Reaches hash less s ∅
  | call {s s' : HashState} {S : Finset Address} {r : Option Address} (c : Call) :
      Reaches hash less s S → c.Allowed s S → c.exec hash less s = .ok (r, s') →
      Reaches hash less s' (c.after S r)
  | other {s : HashState} {S : Finset Address} (heap : Heap Address)
      (mallocResult : Nat → Option Address) : Reaches hash less s S →
      (∀ x, ¬ Outside s S x → heap x = s.heap x) →
      Reaches hash less { s with heap := heap, mallocResult := mallocResult } S

/-! ## Representation -/

variable {s : HashState} {S : Finset Address} {e : Address}

/-- There are fewer elements than addresses, since the headers are not elements. -/
theorem card_lt {hash : Address → UInt64} {c : Nat → List Address} {F : Family Address}
    (h : Holds hash s c F) (helems : ∀ e, e ∈ S ↔ ∃ i < s.bucketCnt, e ∈ c i) :
    S.card < 2 ^ 64 := by
  have hpos := h.pos
  have hnot : (bucketAt s.buckets 0).head ∉ S := by
    intro hS
    obtain ⟨i, hi, hmem⟩ := (helems _).1 hS
    have hl := h.isList hi
    by_cases hi0 : i = 0
    · subst hi0
      exact (elem_ne_headers hl.nodup hmem).1 rfl
    · exact h.wf.apart _ _ _ _ (h.buckets.lists i hi) (h.buckets.lists 0 hpos)
        (bucketAt_ne h.buckets.fits hi hpos hi0) (mem_nodes_of_mem hmem) (head_mem_nodes _ _)
  have hinj : Injective UInt64.toFin := fun _ _ h => UInt64.toFin_inj.1 h
  have hcard := card_le_univ (((Insert.insert (bucketAt s.buckets 0).head S)).map
    ⟨UInt64.toFin, hinj⟩)
  rw [card_map, card_insert_of_notMem hnot, Fintype.card_fin] at hcard
  have hsize : UInt64.size = 2 ^ 64 := rfl
  omega

/-- The table in `s` represents the set `S`, its buckets having the contents `c` in the family of
lists `F`. -/
structure Represents (hash : Address → UInt64) (less : Address → Address → Bool) (s : HashState)
    (S : Finset Address) (c : Nat → List Address) (F : Family Address) : Prop where
  holds : Holds hash s c F
  elems : ∀ e, e ∈ S ↔ ∃ i < s.bucketCnt, e ∈ c i
  distinct : ∀ x ∈ S, ∀ y ∈ S, equivBy less x y = true → x = y
  count : s.elemCnt = S.card

section Representation

variable {hash : Address → UInt64} {less : Address → Address → Bool} {s : HashState}
  {S : Finset Address} {c : Nat → List Address} {F : Family Address}

/-- Nodes outside the table are free. -/
theorem Represents.free (h : Represents hash less s S c F) {x : Address} (hx : Outside s S x) :
    Free F x := by
  intro l xs hl hmem
  obtain ⟨i, hi, rfl⟩ := h.holds.only l xs hl
  rw [h.holds.buckets.lists i hi, Option.some.injEq] at hl
  subst hl
  simp only [nodes, List.cons_append, List.mem_cons, List.mem_append, List.not_mem_nil,
    or_false] at hmem
  rcases hmem with hmem | hmem | hmem
  · exact (hx.2 i hi).1 hmem
  · exact hx.1 ((h.elems x).2 ⟨i, hi, hmem⟩)
  · exact (hx.2 i hi).2 hmem

theorem Represents.mallocFresh (h : Represents hash less s S c F) {S' : Finset Address}
    (hsub : S ⊆ S') (hm : MallocOutside s S' s.mallocResult) : MallocFresh F s.mallocResult := by
  intro size b hb n hn
  obtain ⟨hfits, hout⟩ := hm size b hb n hn
  refine ⟨hfits, ?_⟩
  intro j hj
  obtain ⟨hhead, htail⟩ := hout j hj
  exact ⟨h.free ⟨fun hx => hhead.1 (hsub hx), hhead.2⟩,
    h.free ⟨fun hx => htail.1 (hsub hx), htail.2⟩⟩

/-- A destructor that spares the table spares its lists. -/
theorem Represents.sparing (h : Represents hash less s S c F) {destructor : Address → HashM Unit}
    (hd : SparesTable s S destructor) : Sparing F destructor := by
  intro e t
  refine wp_mono (hd e t) ?_
  rintro - t' ⟨hrest, hnodes⟩
  exact ⟨hrest, fun x hx => hnodes x fun hout => hx (h.free hout)⟩

/-- The search in the home bucket finds what is in the set. -/
theorem Represents.found (h : Represents hash less s S c F)
    (hhash : ∀ a b, equivBy less a b = true → hash a = hash b) (e : Address) :
    Found less S e ((c (homeOf hash s.bucketCnt e)).find? fun x => equivBy less x e) := by
  have hi := homeOf_lt hash h.holds.pos e
  cases hf : (c (homeOf hash s.bucketCnt e)).find? fun x => equivBy less x e with
  | some x =>
    have hs := List.find?_some hf
    exact ⟨(h.elems x).2 ⟨_, hi, List.mem_of_find?_eq_some hf⟩, hs⟩
  | none =>
    intro x hx
    obtain ⟨i, hi', hmem⟩ := (h.elems x).1 hx
    cases hs : equivBy less x e with
    | false => rfl
    | true =>
      -- an equivalent element hashes equally, so it is in the same bucket
      have hhome : i = homeOf hash s.bucketCnt e := by
        rw [← h.holds.home i hi' x hmem, homeOf, homeOf, hhash x e hs]
      subst hhome
      exact absurd hs (List.find?_eq_none.1 hf x hmem)

/-- An element without an equivalent in the set is not in the set. -/
theorem not_mem_of_found [StrictWeak less] (h : ∀ x ∈ S, equivBy less x e = false) :
    e ∉ S := by
  intro he
  have hs := h e he
  rw [equivBy_self] at hs
  cases hs

end Representation

/-! ## One call -/

/-- What `rehash` does to a table with the elements `S`. -/
def RehashedTo (S : Finset Address) : HashState → HashState → Prop :=
  Rehashed (bucketGoal S.card) (· ∈ S)

/-- What a call that returned `r` does to the array of buckets; `S` is the set after it. -/
def Call.Moved (S : Finset Address) (r : Option Address) (s s' : HashState) : Call → Prop
  | .insert _ => RehashedTo S s s'
  | .replace _ => RehashedTo S s s'
  | .delete _ => if r = none then Kept s s' else RehashedTo S s s'
  | .find _ => Kept s s'
  | .clear _ => Kept s s'

section Calls

variable {hash : Address → UInt64} {less : Address → Address → Bool} {s : HashState}
  {S : Finset Address} {c : Nat → List Address} {F : Family Address} {Q : Unit → HashState → Prop}
  {new : Address}

theorem wp_rehash_represents (h : Represents hash less s S c F)
    (hm : MallocFresh F s.mallocResult) :
    wp (rehash hash) s fun _ s' => (∃ c' F', Represents hash less s' S c' F') ∧
      RehashedTo S s s' := by
  have hcnt : s.elemCnt < 2 ^ 64 := by
    rw [h.count]
    exact card_lt h.holds h.elems
  refine wp_mono (wp_rehash h.holds hcnt hm) ?_
  rintro - s' ⟨⟨c', F', hholds, helems⟩, hcount, hrehashed⟩
  refine ⟨⟨c', F', hholds, fun e => (h.elems e).trans (helems e).symm, h.distinct,
    hcount.trans h.count⟩, ?_⟩
  have hE : (fun x => ∃ i < s.bucketCnt, x ∈ c i) = (· ∈ S) :=
    funext fun x => propext (h.elems x).symm
  rw [hE, h.count] at hrehashed
  exact hrehashed

/-- `insert_elem` with an element that has no equivalent in the set. -/
theorem wp_insertElem_represents (h : Represents hash less s S c F) (hout : Outside s S e)
    (hnew : ∀ x ∈ S, equivBy less x e = false)
    (hQ : ∀ heap n c' F', Represents hash less { s with heap := heap, elemCnt := n }
      (Insert.insert e S) c' F' → Q () { s with heap := heap, elemCnt := n }) :
    wp (insertElem (bucketAt s.buckets (homeOf hash s.bucketCnt e)) e) s Q := by
  refine wp_insertElem h.holds (h.free hout) ?_
  intro heap i s' hholds
  have hi : i < s.bucketCnt := homeOf_lt hash h.holds.pos e
  have helems : ∀ x, x ∈ Insert.insert e S ↔
      ∃ j < s.bucketCnt, x ∈ update c i (e :: c i) j := by
    intro x
    rw [mem_insert, h.elems x]
    constructor
    · rintro (rfl | ⟨j, hj, hx⟩)
      · exact ⟨i, hi, by rw [update_self]; exact List.mem_cons_self⟩
      · refine ⟨j, hj, ?_⟩
        by_cases hji : j = i
        · subst hji
          rw [update_self]
          exact List.mem_cons_of_mem e hx
        · rw [update_of_ne hji]
          exact hx
    · rintro ⟨j, hj, hx⟩
      by_cases hji : j = i
      · subst hji
        rw [update_self] at hx
        exact (List.mem_cons.1 hx).imp_right fun hx => ⟨_, hj, hx⟩
      · rw [update_of_ne hji] at hx
        exact Or.inr ⟨j, hj, hx⟩
  have hcard := card_lt hholds helems
  rw [card_insert_of_notMem hout.1] at hcard
  refine hQ heap _ _ _ ⟨hholds, helems, ?_, ?_⟩
  · intro x hx y hy hxy
    rcases mem_insert.1 hx with hxe | hxS
    · rcases mem_insert.1 hy with hye | hyS
      · exact hxe.trans hye.symm
      · have hyx := equivBy_symm hxy
        rw [hxe, hnew y hyS] at hyx
        cases hyx
    · rcases mem_insert.1 hy with hye | hyS
      · rw [hye, hnew x hxS] at hxy
        cases hxy
      · exact h.distinct x hxS y hyS hxy
  · rw [card_insert_of_notMem hout.1, h.count, Nat.mod_eq_of_lt hcard]

/-- `remove_elem` with an element of the table. -/
theorem wp_removeElem_represents (h : Represents hash less s S c F) {i : Nat} (hi : i < s.bucketCnt)
    (he : e ∈ c i)
    (hQ : ∀ heap n c' F', Represents hash less { s with heap := heap, elemCnt := n }
      (S.erase e) c' F' → Q () { s with heap := heap, elemCnt := n }) :
    wp (removeElem e) s Q := by
  obtain ⟨us, vs, hc⟩ := List.append_of_mem he
  refine wp_removeElem h.holds hi hc ?_
  intro heap s' F' hholds hfree
  have heS : e ∈ S := (h.elems e).2 ⟨i, hi, he⟩
  have helems : ∀ x, x ∈ S.erase e ↔
      ∃ j < s.bucketCnt, x ∈ update c i (us ++ vs) j := by
    intro x
    rw [mem_erase, h.elems x]
    constructor
    · rintro ⟨hne, j, hj, hx⟩
      refine ⟨j, hj, ?_⟩
      by_cases hji : j = i
      · subst hji
        rw [hc, List.mem_append, List.mem_cons] at hx
        rw [update_self, List.mem_append]
        exact hx.imp_right fun hx => hx.resolve_left hne
      · rw [update_of_ne hji]
        exact hx
    · rintro ⟨j, hj, hx⟩
      constructor
      · rintro rfl
        exact hfree _ _ (hholds.buckets.lists j hj) (mem_nodes_of_mem hx)
      · refine ⟨j, hj, ?_⟩
        by_cases hji : j = i
        · subst hji
          rw [update_self, List.mem_append] at hx
          rw [hc, List.mem_append]
          exact hx.imp_right fun hx => List.mem_cons_of_mem e hx
        · rw [update_of_ne hji] at hx
          exact hx
  refine hQ heap _ _ _ ⟨hholds, helems, ?_, ?_⟩
  · intro x hx y hy hxy
    exact h.distinct x (mem_of_mem_erase hx) y (mem_of_mem_erase hy) hxy
  · have hpos : 0 < S.card := card_pos.2 ⟨e, heS⟩
    have hlt := card_lt h.holds h.elems
    rw [h.count, pred_mod hpos (Nat.le_of_lt hlt), card_erase_of_mem heS]

section

variable [StrictWeak less] (hhash : ∀ a b, equivBy less a b = true → hash a = hash b)
  (h : Represents hash less s S c F) (hnew : NotHeader s new)
  (hm : MallocOutside s (Insert.insert new S) s.mallocResult)
include hhash h hnew hm

theorem wp_hashInsert :
    wp (hashInsert hash less new) s fun r s' => Found less S new r ∧
      (∃ c' F', Represents hash less s' ((Call.insert new).after S r) c' F') ∧
      RehashedTo ((Call.insert new).after S r) s s' := by
  have hi := homeOf_lt hash h.holds.pos new
  have hfound := h.found hhash new
  rw [hashInsert, wp_bind, wp_findBucket h.holds.pos h.holds.le, wp_bind, wp_findElem h.holds hi]
  cases hr : (c (homeOf hash s.bucketCnt new)).find? fun x => equivBy less x new with
  | some x =>
    rw [hr] at hfound
    change wp (rehash hash >>= fun _ => pure (some x)) s _
    rw [wp_bind]
    refine wp_mono (wp_rehash_represents h (h.mallocFresh (subset_insert new S) hm)) ?_
    rintro - s' ⟨hrep, hmoved⟩
    rw [wp_pure, Call.after, if_neg (Option.some_ne_none x)]
    exact ⟨hfound, hrep, hmoved.moves, hmoved.stays⟩
  | none =>
    rw [hr] at hfound
    rw [if_pos rfl, wp_bind]
    refine wp_insertElem_represents h ⟨not_mem_of_found hfound, hnew⟩ hfound ?_
    intro heap n c' F' h'
    rw [wp_bind]
    refine wp_mono (wp_rehash_represents h' (h'.mallocFresh (Finset.Subset.refl _) hm)) ?_
    rintro - s' ⟨hrep, hmoved⟩
    rw [wp_pure, Call.after, if_pos rfl]
    exact ⟨hfound, hrep, hmoved.moves, hmoved.stays⟩

theorem wp_hashReplace :
    wp (hashReplace hash less new) s fun r s' => Found less S new r ∧
      (∃ c' F', Represents hash less s' ((Call.replace new).after S r) c' F') ∧
      RehashedTo ((Call.replace new).after S r) s s' := by
  have hi := homeOf_lt hash h.holds.pos new
  have hfound := h.found hhash new
  rw [hashReplace, wp_bind, wp_findBucket h.holds.pos h.holds.le, wp_bind, wp_findElem h.holds hi]
  cases hr : (c (homeOf hash s.bucketCnt new)).find? fun x => equivBy less x new with
  | some x =>
    rw [hr] at hfound
    obtain ⟨hxS, hx⟩ := hfound
    rw [wp_bind]
    refine wp_removeElem_represents h hi (List.mem_of_find?_eq_some hr) ?_
    intro heap₁ n₁ c₁ F₁ h₁
    -- nothing equivalent to `new` is left, and `new` itself was `x` if it was in the table
    have hleft : ∀ y ∈ S.erase x, equivBy less y new = false := by
      intro y hy
      cases hs : equivBy less y new with
      | false => rfl
      | true =>
        have hyx := equivBy_of_class (equivBy_symm hs) (equivBy_symm hx)
        exact absurd (h.distinct y (mem_of_mem_erase hy) x hxS hyx)
          (ne_of_mem_erase hy)
    rw [wp_bind]
    refine wp_insertElem_represents h₁ ⟨not_mem_of_found hleft, hnew⟩ hleft ?_
    intro heap₂ n₂ c₂ F₂ h₂
    have hsub : Insert.insert new (S.erase x) ⊆ Insert.insert new S :=
      insert_subset_insert new (erase_subset x S)
    rw [wp_bind]
    refine wp_mono (wp_rehash_represents h₂ (h₂.mallocFresh hsub hm)) ?_
    rintro - s' ⟨hrep, hmoved⟩
    rw [wp_pure]
    exact ⟨⟨hxS, hx⟩, hrep, hmoved.moves, hmoved.stays⟩
  | none =>
    rw [hr] at hfound
    rw [wp_bind]
    refine wp_insertElem_represents h ⟨not_mem_of_found hfound, hnew⟩ hfound ?_
    intro heap n c' F' h'
    rw [wp_bind]
    refine wp_mono (wp_rehash_represents h' (h'.mallocFresh (Finset.Subset.refl _) hm)) ?_
    rintro - s' ⟨hrep, hmoved⟩
    rw [wp_pure]
    exact ⟨hfound, hrep, hmoved.moves, hmoved.stays⟩

end

theorem kept_refl (s : HashState) : Kept s s := ⟨rfl, rfl, rfl⟩

theorem wp_hashFind (hhash : ∀ a b, equivBy less a b = true → hash a = hash b)
    (h : Represents hash less s S c F) (e : Address) :
    wp (hashFind hash less e) s fun r s' => Found less S e r ∧ s' = s := by
  have hi := homeOf_lt hash h.holds.pos e
  rw [hashFind, wp_bind, wp_findBucket h.holds.pos h.holds.le, wp_findElem h.holds hi]
  exact ⟨h.found hhash e, rfl⟩

theorem wp_hashDelete (hhash : ∀ a b, equivBy less a b = true → hash a = hash b)
    (h : Represents hash less s S c F) (hm : MallocOutside s S s.mallocResult) :
    wp (hashDelete hash less e) s fun r s' => Found less S e r ∧
      (∃ c' F', Represents hash less s' (without S r) c' F') ∧
      (Call.delete e).Moved (without S r) r s s' := by
  have hi := homeOf_lt hash h.holds.pos e
  have hfound := h.found hhash e
  rw [hashDelete, wp_bind, wp_findBucket h.holds.pos h.holds.le, wp_bind, wp_findElem h.holds hi]
  cases hr : (c (homeOf hash s.bucketCnt e)).find? fun x => equivBy less x e with
  | some x =>
    rw [hr] at hfound
    rw [wp_bind]
    refine wp_removeElem_represents h hi (List.mem_of_find?_eq_some hr) ?_
    intro heap n c' F' h'
    rw [wp_bind]
    refine wp_mono (wp_rehash_represents h' (h'.mallocFresh (erase_subset x S) hm)) ?_
    rintro - s' ⟨hrep, hmoved⟩
    rw [wp_pure]
    rw [Call.Moved, if_neg (Option.some_ne_none x)]
    exact ⟨hfound, hrep, hmoved.moves, hmoved.stays⟩
  | none =>
    rw [hr] at hfound
    rw [wp_pure]
    rw [Call.Moved, if_pos rfl]
    exact ⟨hfound, ⟨c, F, h⟩, kept_refl s⟩

/-- A table whose buckets are all empty represents the empty set. -/
theorem represents_empty {F' : Family Address} (hwf : WellFormed s.heap F')
    (hfits : Fits s.buckets s.bucketCnt) (hempty : Emptied F F' s.buckets s.bucketCnt)
    (honly : ∀ l xs, F l = some xs → ∃ i < s.bucketCnt, l = bucketAt s.buckets i)
    (hsize : ∃ k, 2 ≤ k ∧ s.bucketCnt = 2 ^ k) (hcnt : s.elemCnt = 0) :
    Represents hash less s ∅ (fun _ => []) F' := by
  refine ⟨⟨hwf, ⟨hfits, hempty.empty⟩, ?_, hsize, by simp⟩, by simp, by simp, hcnt⟩
  intro l xs hl
  by_cases hb : ∃ i < s.bucketCnt, l = bucketAt s.buckets i
  · exact hb
  · rw [hempty.rest l fun j hj e => hb ⟨j, hj, e⟩] at hl
    exact honly l xs hl

theorem wp_hashClear_represents (h : Represents hash less s S c F)
    {destructor : Option (Address → HashM Unit)}
    (hd : ∀ d, destructor = some d → SparesTable s S d) :
    wp (hashClear destructor) s fun _ s' =>
      (∃ c' F', Represents hash less s' ∅ c' F') ∧ Kept s s' := by
  refine wp_mono (wp_hashClear (c := c) h.holds.wf h.holds.buckets.fits h.holds.headers_apart
    fun d hsome => ⟨h.sparing (hd d hsome), h.holds.buckets.lists⟩) ?_
  rintro - s' ⟨heap, m, F', rfl, hwf, hempty⟩
  exact ⟨⟨_, F', represents_empty hwf h.holds.buckets.fits hempty h.holds.only h.holds.size rfl⟩,
    rfl, rfl, rfl⟩

/-- `hash_init` succeeds when the array of four buckets can be allocated, and makes an empty
table. -/
theorem wp_hashInit (hash : Address → UInt64) (less : Address → Address → Bool)
    (hfits : ∀ size b, s.mallocResult size = some b → Fits b (size / sizeofList)) :
    wp hashInit s fun ok s' => ok = (s.mallocResult 128).isSome ∧ (ok = true →
      (s'.bucketCnt = 4 ∧ s.mallocResult 128 = some s'.buckets) ∧
      ∃ c F, Represents hash less s' ∅ c F) := by
  rw [hashInit, wp_bind, wp_modify, wp_bind, malloc]
  rw [if_neg (by decide), wp_bind, wp_get, wp_pure]
  have hsize : sizeofList * 4 % 2 ^ 64 = 128 := by norm_num [sizeofList]
  rw [hsize]
  cases hb : s.mallocResult 128 with
  | none =>
    rw [wp_pure]
    exact ⟨rfl, fun h => absurd h Bool.false_ne_true⟩
  | some b =>
    have hfit : Fits b 4 := hfits _ b hb
    rw [wp_bind, wp_modify, wp_bind]
    refine wp_mono (wp_hashClear (F := fun _ => none) (c := fun _ => []) ⟨by simp, by simp⟩ hfit
      (by simp) fun d hd => by cases hd) ?_
    rintro - s' ⟨heap, m, F', rfl, hwf, hempty⟩
    rw [wp_pure]
    exact ⟨rfl, fun _ => ⟨⟨rfl, rfl⟩, _, F',
      represents_empty hwf hfit hempty (by simp) ⟨2, le_rfl, rfl⟩ rfl⟩⟩

/-- A call that is allowed returns what the set determines, and the table represents the set
afterwards. -/
theorem wp_call [StrictWeak less] (hhash : ∀ a b, equivBy less a b = true → hash a = hash b)
    (h : Represents hash less s S c F) {call : Call} (hc : call.Allowed s S) :
    wp (call.exec hash less) s fun r s' => call.Answer less S r ∧
      (∃ c' F', Represents hash less s' (call.after S r) c' F') ∧
      call.Moved (call.after S r) r s s' := by
  cases call with
  | insert new => exact wp_hashInsert hhash h hc.1 hc.2
  | replace new => exact wp_hashReplace hhash h hc.1 hc.2
  | find e =>
    refine wp_mono (wp_hashFind hhash h e) ?_
    rintro r s' ⟨hfound, rfl⟩
    exact ⟨hfound, ⟨c, F, h⟩, kept_refl s'⟩
  | delete e => exact wp_hashDelete hhash h hc
  | clear destructor =>
    rw [Call.exec, wp_bind]
    refine wp_mono (wp_hashClear_represents h hc) ?_
    rintro - s' ⟨hrep, hmoved⟩
    rw [wp_pure]
    exact ⟨rfl, hrep, hmoved⟩

end Calls

/-! ## Whole runs -/

section Runs

variable {hash : Address → UInt64} {less : Address → Address → Bool}

theorem reaches_represents [StrictWeak less]
    (hhash : ∀ a b, equivBy less a b = true → hash a = hash b) (h : Reaches hash less s S) :
    ∃ c F, Represents hash less s S c F := by
  induction h with
  | init hfits hinit => exact ((wlp_of_wp (wp_hashInit _ _ hfits) _ _ hinit).2 rfl).2
  | call c _ hallowed hexec ih =>
    obtain ⟨b, F, hrep⟩ := ih
    exact (wlp_of_wp (wp_call hhash hrep hallowed) _ _ hexec).2.1
  | other heap mallocResult _ hsame ih =>
    obtain ⟨b, F, hrep⟩ := ih
    have hwf := hrep.holds.wf.frame fun x hx => hsame x fun hout => hx (hrep.free hout)
    exact ⟨b, F, ⟨hwf, hrep.holds.buckets, hrep.holds.only, hrep.holds.size, hrep.holds.home⟩,
      hrep.elems, hrep.distinct, hrep.count⟩

/-- In every table that calls lead to, the number of buckets is a power of two and at least four,
every element is in the bucket `hash & (bucket_cnt - 1)`, `elem_cnt` is the number of elements and
no two elements are equivalent. Every call that is allowed there returns, with the result that the
set determines. When its `rehash` aims at another number of buckets, for the elements of the new
set, and gets memory for them, it moves each of these elements once into the new array; otherwise
the array is the old one and nothing moves. -/
theorem hash_refines [StrictWeak less] (hhash : ∀ a b, equivBy less a b = true → hash a = hash b)
    {s : HashState} {S : Finset Address} (h : Reaches hash less s S) :
    (∃ c F, Represents hash less s S c F) ∧
    ∀ call : Call, call.Allowed s S → ∃ r s', call.exec hash less s = .ok (r, s') ∧
      call.Answer less S r ∧ call.Moved (call.after S r) r s s' := by
  obtain ⟨c, F, hrep⟩ := reaches_represents hhash h
  refine ⟨⟨c, F, hrep⟩, ?_⟩
  intro call hallowed
  obtain ⟨r, s', hrun, hanswer, -, hmoved⟩ := wp_call hhash hrep hallowed
  exact ⟨r, s', hrun, hanswer, hmoved⟩

/-- A state in which `malloc` gives out one block of 128 bytes, at address 4096. -/
def beforeInit : HashState :=
  ⟨fun _ => ⟨none, none⟩, 0, 0, 0, fun size => if size = 128 then some 4096 else none, []⟩

theorem beforeInit_fits (size : Nat) (b : Address) (hb : beforeInit.mallocResult size = some b) :
    Fits b (size / sizeofList) := by
  simp only [beforeInit] at hb
  by_cases hsize : size = 128
  · subst hsize
    rw [if_pos rfl, Option.some.injEq] at hb
    subst hb
    unfold Fits
    decide
  · rw [if_neg hsize] at hb
    cases hb

/-- The order of the addresses. -/
def below (a b : Address) : Bool := decide (a < b)

instance : StrictWeak below where
  irrefl a := by simp [below]
  trans a b c := by simpa [below] using UInt64.lt_trans
  incomp_trans a b c := by
    simp only [below, decide_eq_true_eq, UInt64.not_lt]
    exact fun hab hbc => ⟨UInt64.le_trans hbc.1 hab.1, UInt64.le_trans hab.2 hbc.2⟩

theorem eq_of_equivBy_below (a b : Address) (h : equivBy below a b = true) : a = b := by
  simp only [equivBy_iff, below, decide_eq_false_iff_not, UInt64.not_lt] at h
  exact UInt64.le_antisymm h.2 h.1

/-- Addresses below the first table, for its elements. -/
def elemAt (i : Nat) : Address := UInt64.ofNat (8 * i + 8)

theorem toNat_elemAt {i : Nat} (hi : i < 100) : (elemAt i).toNat = 8 * i + 8 :=
  UInt64.toNat_ofNat_of_lt' (lt_of_lt_of_le (by omega : 8 * i + 8 < 1000) (by decide))

/-- The first `n` of these addresses. -/
def elemsTo (n : Nat) : Finset Address := (range n).image elemAt

theorem toNat_of_mem_elemsTo {n : Nat} (hn : n ≤ 100) {x : Address} (hx : x ∈ elemsTo n) :
    x.toNat < 8 * n + 8 := by
  obtain ⟨i, hi, rfl⟩ := mem_image.1 hx
  have hi := mem_range.1 hi
  rw [toNat_elemAt (by omega)]
  omega

theorem elemsTo_succ (n : Nat) : Insert.insert (elemAt n) (elemsTo n) = elemsTo (n + 1) := by
  rw [elemsTo, elemsTo, range_add_one, image_insert]

/-- Four buckets at address 4096. -/
def AtStart (s : HashState) : Prop := s.bucketCnt = 4 ∧ s.buckets = 4096

theorem AtStart.notHeader (h : AtStart s) {x : Address} (hx : x.toNat < 4096) : NotHeader s x := by
  have hheaders : ∀ i < 4, 4096 ≤ (bucketAt 4096 i).head.toNat ∧
      4096 ≤ (bucketAt 4096 i).tail.toNat := by decide
  intro i hi
  rw [h.1] at hi
  rw [h.2]
  constructor
  · rintro rfl
    exact absurd (hheaders i hi).1 (Nat.not_le.2 hx)
  · rintro rfl
    exact absurd (hheaders i hi).2 (Nat.not_le.2 hx)

/-- A table of any number of elements that has not found memory for more than four buckets. -/
theorem exists_table {n : Nat} (hn : n ≤ 100) :
    ∃ s, Reaches id below s (elemsTo n) ∧ AtStart s := by
  induction n with
  | zero =>
    obtain ⟨ok, s, hinit, hok, hrest⟩ := wp_hashInit id below beforeInit_fits
    obtain rfl : ok = true := hok
    obtain ⟨⟨hcnt, hbuckets⟩, -⟩ := hrest rfl
    exact ⟨s, .init beforeInit_fits hinit, hcnt, (Option.some.inj hbuckets).symm⟩
  | succ n ih =>
    obtain ⟨s, hreach, hstart⟩ := ih (by omega)
    have hreach' : Reaches id below { s with heap := s.heap, mallocResult := fun _ => none }
      (elemsTo n) := .other s.heap _ hreach fun _ _ => rfl
    obtain ⟨c, F, hrep⟩ := reaches_represents eq_of_equivBy_below hreach'
    have hnew := toNat_elemAt (show n < 100 by omega)
    have hallowed : (Call.insert (elemAt n)).Allowed
        { s with heap := s.heap, mallocResult := fun _ => none } (elemsTo n) :=
      ⟨hstart.notHeader (by omega), fun size b hb => by cases hb⟩
    obtain ⟨r, s', hexec, hanswer, -, hmoved⟩ := wp_call eq_of_equivBy_below hrep hallowed
    obtain rfl : r = none := by
      cases r with
      | none => rfl
      | some x =>
        have hlt := toNat_of_mem_elemsTo (by omega) hanswer.1
        rw [eq_of_equivBy_below _ _ hanswer.2] at hlt
        omega
    have hkept := hmoved.stays fun hm => hm.2.2 rfl
    have hnext := Reaches.call _ hreach' hallowed hexec
    rw [Call.after, if_pos rfl, elemsTo_succ] at hnext
    exact ⟨s', hnext, hkept.1.trans hstart.1, hkept.2.1.trans hstart.2⟩

/-- Memory for eight buckets, at address 8192. -/
def roomForEight (size : Nat) : Option Address := if size = 256 then some 8192 else none

theorem roomForEight_ne_none :
    sizeofList * 8 % 2 ^ 64 ≠ 0 ∧ roomForEight (sizeofList * 8 % 2 ^ 64) ≠ none := by decide

theorem mallocOutside_roomForEight (h : AtStart s) {n : Nat} (hn : n ≤ 100) :
    MallocOutside s (elemsTo n) roomForEight := by
  have hhigh : ∀ j < 8, 8192 ≤ (bucketAt 8192 j).head.toNat ∧
      8192 ≤ (bucketAt 8192 j).tail.toNat := by decide
  have hheaders : ∀ j < 8, ∀ i < 4, ((bucketAt 8192 j).head ≠ (bucketAt 4096 i).head ∧
      (bucketAt 8192 j).head ≠ (bucketAt 4096 i).tail) ∧
      (bucketAt 8192 j).tail ≠ (bucketAt 4096 i).head ∧
      (bucketAt 8192 j).tail ≠ (bucketAt 4096 i).tail := by decide
  intro size b hb m hm
  rw [roomForEight] at hb
  split_ifs at hb with hsize
  cases hb
  have hm8 : m ≤ 8 := by
    rw [sizeofList] at hm
    omega
  have hfits : Fits 8192 m := by
    have haddress : (8192 : Address).toNat = 8192 := by decide
    rw [Fits, haddress, sizeofList]
    omega
  have hout : ∀ x : Address, 8192 ≤ x.toNat → x ∉ elemsTo n := fun x hx hmem => by
    have := toNat_of_mem_elemsTo hn hmem
    omega
  refine ⟨hfits, fun j hj => ?_⟩
  have hj : j < 8 := by omega
  refine ⟨⟨hout _ (hhigh j hj).1, fun i hi => ?_⟩, hout _ (hhigh j hj).2, fun i hi => ?_⟩
  · rw [h.2]
    exact (hheaders j hj i (h.1 ▸ hi)).1
  · rw [h.2]
    exact (hheaders j hj i (h.1 ▸ hi)).2

/-- A table of 16 elements in four buckets: `rehash` gives it eight, and then leaves it so. -/
theorem rehash_sizing_grows :
    ∃ s s' : HashState, s.elemCnt = 16 ∧ s.bucketCnt = 4 ∧ rehash id s = .ok ((), s') ∧
      s'.bucketCnt = 8 ∧ rehash id s' = .ok ((), s') := by
  obtain ⟨s, hreach, hstart⟩ := exists_table (n := 16) (by decide)
  have hreach' : Reaches id below { s with heap := s.heap, mallocResult := roomForEight }
    (elemsTo 16) := .other s.heap _ hreach fun _ _ => rfl
  obtain ⟨c, F, hrep⟩ := reaches_represents eq_of_equivBy_below hreach'
  have hcnt : s.elemCnt = 16 := hrep.count.trans (by decide +kernel)
  have hgoal : bucketGoal s.elemCnt = 8 := by rw [hcnt]; decide
  have hbound : s.elemCnt < 2 ^ 64 := by rw [hcnt]; decide
  obtain ⟨n, s', hnew, hrun, -, hsized⟩ := rehash_sizing.2 id _ c F hrep.holds hbound
    (hrep.mallocFresh (Finset.Subset.refl _) (mallocOutside_roomForEight hstart (by decide)))
  obtain ⟨rfl, -⟩ := Prod.mk.inj (Except.ok.inj (hnew.symm.trans (newBucketCnt_eq hbound _)))
  obtain ⟨hcnt', -, hagain⟩ := hsized (.inr (by rw [hgoal]; exact roomForEight_ne_none))
  exact ⟨{ s with mallocResult := roomForEight }, s', hcnt, hstart.1, hrun,
    hcnt'.trans hgoal, hagain⟩

/-- The insertion of a 16th element moves all of them into an array of eight buckets. -/
theorem hash_refines_grows :
    ∃ s s' : HashState, Reaches id below s (elemsTo 15) ∧ s.bucketCnt = 4 ∧
      hashInsert id below (elemAt 15) s = .ok (none, s') ∧ s'.bucketCnt = 8 ∧
      ∃ l, s'.moved = s.moved ++ l ∧ l.Nodup ∧ ∀ x, x ∈ l ↔ x ∈ elemsTo 16 := by
  obtain ⟨s, hreach, hstart⟩ := exists_table (n := 15) (by decide)
  have hreach' : Reaches id below { s with heap := s.heap, mallocResult := roomForEight }
    (elemsTo 15) := .other s.heap _ hreach fun _ _ => rfl
  have hallowed : (Call.insert (elemAt 15)).Allowed
      { s with heap := s.heap, mallocResult := roomForEight } (elemsTo 15) := by
    refine ⟨hstart.notHeader (by decide), ?_⟩
    rw [elemsTo_succ]
    exact mallocOutside_roomForEight hstart (by decide)
  obtain ⟨r, s', hrun, hanswer, hmoved⟩ :=
    (hash_refines eq_of_equivBy_below hreach').2 _ hallowed
  obtain rfl : r = none := by
    cases r with
    | none => rfl
    | some x =>
      have hlt := toNat_of_mem_elemsTo (by decide) hanswer.1
      rw [eq_of_equivBy_below _ _ hanswer.2] at hlt
      exact absurd hlt (by decide)
  rw [Call.Moved, Call.after, if_pos rfl, elemsTo_succ, RehashedTo] at hmoved
  have hgoal : bucketGoal (elemsTo 16).card = 8 := by decide +kernel
  rw [hgoal] at hmoved
  obtain ⟨hcnt, -, hlist⟩ := hmoved.moves ⟨by rw [hstart.1]; decide, roomForEight_ne_none⟩
  exact ⟨_, s', hreach', hstart.1, hrun, hcnt, hlist⟩

end Runs

end Pintos.LibKernel.HashSets
