import Pintos.Lib.ByteMemory
import Pintos.LibKernel.ListLaws

/-!
# Lists in byte memory

The nodes of a list are `struct list_elem`s, 16 bytes of memory each: `prev` at the address of the
node and `next` 8 bytes further on, a null pointer being zero. `linksAt` reads the links of every
address, and `storeLinks` writes back those that a list function has changed. As long as the nodes
in use do not overlap, a list function in memory does what it does on separate nodes, and changes
no other byte than those of the nodes of the list (`Stored`).
-/

set_option autoImplicit false

namespace Pintos.LibKernel.ListMemory

open Lib.StateExcept Lib.LinkedNodes Lib.ByteMemory
open LibKernel.List ListFamily ListLaws

/-- `sizeof (struct list_elem)`. -/
def sizeofListElem : Nat := 16

/-- The pointer that a number stands for. -/
def pointer (n : Nat) : Option Nat := if n = 0 then none else some n

/-- The number that stands for a pointer. -/
def addressOf (p : Option Nat) : Nat := p.getD 0

/-- The `struct list_elem` at an address. -/
def linksAt (m : Bytes) (x : Nat) : Links Nat :=
  ⟨pointer (readLE m 8 x), pointer (readLE m 8 (x + 8))⟩

/-- Byte `j` of a `struct list_elem`. -/
def linkByte (l : Links Nat) (j : Nat) : UInt8 :=
  if j < 8 then byteLE (addressOf l.prev) j else byteLE (addressOf l.next) (j - 8)

instance : DecidableEq (Links Nat) := fun a b =>
  decidable_of_iff (a.prev = b.prev ∧ a.next = b.next)
    ⟨fun h => Links.ext h.1 h.2, by rintro rfl; simp⟩

/-- The memory with all nodes stored whose links are not those that it has. -/
def storeLinks (m : Bytes) (h : Heap Nat) : Bytes := fun a =>
  match (List.range sizeofListElem).find? fun j =>
    decide (j ≤ a ∧ h (a - j) ≠ linksAt m (a - j)) with
  | some j => linkByte (h (a - j)) j
  | none => m a

/-! ## Nodes that do not overlap -/

/-- The nodes in use are at addresses other than null, and do not overlap. -/
structure Spaced (F : Family Nat) : Prop where
  valid : ∀ x, ¬ Free F x → 0 < x ∧ x + sizeofListElem ≤ 2 ^ 64
  apart : ∀ x y, ¬ Free F x → ¬ Free F y → x ≠ y →
    x + sizeofListElem ≤ y ∨ y + sizeofListElem ≤ x

variable {l : KList Nat} {xs : List Nat} {x : Nat}

theorem not_free_of_mem {F : Family Nat} (hl : F l = some xs) (hx : x ∈ nodes l xs) : ¬ Free F x :=
  fun hfree => hfree l xs hl hx

section Store

variable {m : Bytes} {h : Heap Nat}

/-- A byte that no changed node covers is kept. -/
theorem storeLinks_frame {a : Nat}
    (hout : ∀ x, h x ≠ linksAt m x → a < x ∨ x + sizeofListElem ≤ a) : storeLinks m h a = m a := by
  have hnone : ((List.range sizeofListElem).find?
      fun j => decide (j ≤ a ∧ h (a - j) ≠ linksAt m (a - j))) = none := by
    rw [List.find?_eq_none]
    intro j hj hch
    have hj' := List.mem_range.1 hj
    obtain ⟨hja, hne⟩ := of_decide_eq_true hch
    have := hout _ hne
    omega
  rw [storeLinks, hnone]

/-- A list function that changes no link stores nothing. -/
theorem storeLinks_linksAt (m : Bytes) : storeLinks m (linksAt m) = m :=
  funext fun _ => storeLinks_frame fun _ hx => absurd rfl hx

/-- A byte of a changed node which no other changed node covers. -/
theorem storeLinks_byte {j : Nat} (hj : j < sizeofListElem) (hx : h x ≠ linksAt m x)
    (hout : ∀ y, h y ≠ linksAt m y → y ≠ x → x + sizeofListElem ≤ y ∨ y + sizeofListElem ≤ x) :
    storeLinks m h (x + j) = linkByte (h x) j := by
  have hsome : ((List.range sizeofListElem).find?
      fun i => decide (i ≤ x + j ∧ h (x + j - i) ≠ linksAt m (x + j - i))) = some j := by
    cases hf : (List.range sizeofListElem).find?
        fun i => decide (i ≤ x + j ∧ h (x + j - i) ≠ linksAt m (x + j - i)) with
    | none =>
      rw [List.find?_eq_none] at hf
      refine absurd (decide_eq_true ⟨by omega, ?_⟩) (hf j (List.mem_range.2 hj))
      rwa [Nat.add_sub_cancel]
    | some i =>
      have hch := List.find?_some hf
      have hi := List.mem_range.1 (List.mem_of_find?_eq_some hf)
      obtain ⟨hij, hne⟩ := of_decide_eq_true hch
      by_cases hxi : x + j - i = x
      · rw [Option.some.injEq]
        omega
      · have := hout _ hne hxi
        omega
  rw [storeLinks, hsome]
  change linkByte (h (x + j - j)) j = _
  rw [Nat.add_sub_cancel]

/-- A link that memory can hold: null, or an address other than zero. -/
def Storable (p : Option Nat) : Prop := ∀ x, p = some x → 0 < x ∧ x < 2 ^ 64

theorem pointer_addressOf {p : Option Nat} (hp : Storable p) :
    pointer (addressOf p % 256 ^ 8) = p := by
  cases p with
  | none => rfl
  | some x =>
    obtain ⟨h0, hlt⟩ := hp x rfl
    have hmod : addressOf (some x) % 256 ^ 8 = x :=
      Nat.mod_eq_of_lt (lt_of_lt_of_eq hlt (by norm_num))
    rw [hmod, pointer, if_neg (Nat.pos_iff_ne_zero.1 h0)]

/-- The links of a changed node can be read back. -/
theorem linksAt_storeLinks (hx : h x ≠ linksAt m x)
    (hout : ∀ y, h y ≠ linksAt m y → y ≠ x → x + sizeofListElem ≤ y ∨ y + sizeofListElem ≤ x)
    (hp : Storable (h x).prev) (hn : Storable (h x).next) :
    linksAt (storeLinks m h) x = h x := by
  have hprev : readLE (storeLinks m h) 8 x = addressOf (h x).prev % 256 ^ 8 := by
    apply readLE_of_byteLE
    intro i hi
    rw [storeLinks_byte (by rw [sizeofListElem]; omega) hx hout, linkByte, if_pos hi]
  have hnext : readLE (storeLinks m h) 8 (x + 8) = addressOf (h x).next % 256 ^ 8 := by
    apply readLE_of_byteLE
    intro i hi
    rw [Nat.add_assoc, storeLinks_byte (by rw [sizeofListElem]; omega) hx hout, linkByte,
      if_neg (by omega), Nat.add_sub_cancel_left]
  rw [linksAt, hprev, hnext, pointer_addressOf hp, pointer_addressOf hn]

/-- Links depend on the 16 bytes of their node. -/
theorem linksAt_congr {m' : Bytes} (hsame : ∀ a, x ≤ a → a < x + sizeofListElem → m' a = m a) :
    linksAt m' x = linksAt m x := by
  rw [sizeofListElem] at hsame
  have hprev : readLE m' 8 x = readLE m 8 x :=
    readLE_congr fun i hi => hsame _ (by omega) (by omega)
  have hnext : readLE m' 8 (x + 8) = readLE m 8 (x + 8) :=
    readLE_congr fun i hi => hsame _ (by omega) (by omega)
  rw [linksAt, linksAt, hprev, hnext]

end Store

/-! ## Lists -/

/-- The links inside a list lead to nodes of the list. -/
theorem links_mem {h : Heap Nat} (hl : IsList h l xs) (hx : x ∈ nodes l xs) :
    (∀ p, (h x).prev = some p → p ∈ nodes l xs) ∧ ∀ n, (h x).next = some n → n ∈ nodes l xs := by
  have hfirst := firstOf_mem_nodes l [] xs
  have hlast := lastOf_mem_nodes l xs []
  rw [List.append_nil] at hlast
  simp only [nodes, List.mem_append, List.mem_cons, List.not_mem_nil, or_false] at hx
  rcases hx with (rfl | hx) | rfl
  · rw [hl.headPrev, hl.joined_head.1]
    refine ⟨by simp, ?_⟩
    rintro n ⟨⟩
    exact hfirst
  · obtain ⟨us, vs, rfl⟩ := List.append_of_mem hx
    obtain ⟨hp, hn⟩ := links_elem hl
    rw [hp, hn]
    constructor
    · rintro p ⟨⟩
      exact lastOf_mem_nodes l us _
    · rintro n ⟨⟩
      have hmem := firstOf_mem_nodes l (us ++ [x]) vs
      rwa [List.append_assoc] at hmem
  · rw [hl.tailNext, hl.joined_tail.2]
    refine ⟨?_, by simp⟩
    rintro p ⟨⟩
    exact hlast

/-- The memory `m'` holds the lists `F`, and differs from `m` in the nodes `ns` at most. -/
structure Stored (m m' : Bytes) (F : Family Nat) (ns : List Nat) : Prop where
  wf : WellFormed (linksAt m') F
  frame : ∀ a, (∀ x ∈ ns, a < x ∨ x + sizeofListElem ≤ a) → m' a = m a

/-- Lists that a list function has left on separate nodes are there in memory, too. -/
theorem stored_of_wellFormed {m : Bytes} {h : Heap Nat} {F : Family Nat} (hwf : WellFormed h F)
    (hsp : Spaced F) (hl : F l = some xs) (hsame : ∀ x, x ∉ nodes l xs → h x = linksAt m x) :
    Stored m (storeLinks m h) F (nodes l xs) := by
  have hch : ∀ x, h x ≠ linksAt m x → x ∈ nodes l xs := fun x hx =>
    Classical.byContradiction fun hnot => hx (hsame x hnot)
  have hout : ∀ a, (∀ x ∈ nodes l xs, a < x ∨ x + sizeofListElem ≤ a) → storeLinks m h a = m a :=
    fun a ha => storeLinks_frame fun x hx => ha x (hch x hx)
  refine ⟨hwf.frame ?_, hout⟩
  intro x hx
  -- the node is stored, or none of its bytes is written
  by_cases hxc : h x = linksAt m x
  · rw [hxc]
    refine linksAt_congr fun a ha₁ ha₂ => storeLinks_frame fun y hy => ?_
    have hyx : y ≠ x := by
      rintro rfl
      exact hy hxc
    have := hsp.apart y x (not_free_of_mem hl (hch y hy)) hx hyx
    omega
  · have hxm := hch x hxc
    have hlinks := links_mem (hwf.isList l xs hl) hxm
    have hvalid : ∀ y ∈ nodes l xs, 0 < y ∧ y < 2 ^ 64 := by
      intro y hy
      have := hsp.valid y (not_free_of_mem hl hy)
      rw [sizeofListElem] at this
      omega
    refine linksAt_storeLinks hxc ?_ (fun p hp => hvalid p (hlinks.1 p hp))
      fun n hn => hvalid n (hlinks.2 n hn)
    exact fun y hy hyx => hsp.apart x y hx (not_free_of_mem hl (hch y hy)) hyx.symm

section Functions

variable {m : Bytes} {F : Family Nat} {l : KList Nat} {us vs xs : List Nat} {e : Nat}

section

variable (hwf : WellFormed (linksAt m) F)
include hwf

theorem wp_listPushFront_stored (hl : F l = some xs) (he : Free F e)
    (hsp : Spaced (F.put l (e :: xs))) :
    wp (listPushFront l (some e)) (linksAt m) fun _ h' =>
      Stored m (storeLinks m h') (F.put l (e :: xs)) (nodes l (e :: xs)) := by
  have hlist := hwf.isList l xs hl
  have hne : firstOf l xs ≠ e := fun h => he l xs hl (h ▸ firstOf_mem_nodes l [] xs)
  have hpush := wp_listPushFront hwf hl he
  rw [wp_listPushFront_iff hlist hne] at hpush ⊢
  refine stored_of_wellFormed hpush hsp (put_self _ _ _) fun x hx => link_frame ?_ ?_ ?_ ?_
  · exact fun h => hx (h ▸ head_mem_nodes l _)
  · exact fun h => hx (mem_nodes_of_mem (by simp [h]))
  · exact fun h => hx (mem_nodes_of_mem (by simp [h]))
  · exact fun h => hx (h ▸ firstOf_mem_nodes l [e] xs)

theorem wp_listPushBack_stored (hl : F l = some xs) (he : Free F e)
    (hsp : Spaced (F.put l (xs ++ [e]))) :
    wp (listPushBack l (some e)) (linksAt m) fun _ h' =>
      Stored m (storeLinks m h') (F.put l (xs ++ [e])) (nodes l (xs ++ [e])) := by
  have hlist := hwf.isList l xs hl
  have hne : l.tail ≠ e := fun h => he l xs hl (h ▸ tail_mem_nodes l xs)
  have hpush := wp_listPushBack hwf hl he
  rw [wp_listPushBack_iff hlist hne] at hpush ⊢
  refine stored_of_wellFormed hpush hsp (put_self _ _ _) fun x hx => link_frame ?_ ?_ ?_ ?_
  · exact fun h => hx (h ▸ lastOf_mem_nodes l xs [e])
  · exact fun h => hx (mem_nodes_of_mem (by simp [h]))
  · exact fun h => hx (mem_nodes_of_mem (by simp [h]))
  · exact fun h => hx (h ▸ tail_mem_nodes l _)

theorem wp_listRemove_stored (hl : F l = some (us ++ e :: vs)) (hsp : Spaced (F.put l (us ++ vs))) :
    wp (listRemove (some e)) (linksAt m) fun _ h' =>
      Stored m (storeLinks m h') (F.put l (us ++ vs)) (nodes l (us ++ vs)) := by
  have hremove := wp_listRemove hwf hl
  rw [wp_listRemove_iff (hwf.isList l _ hl)] at hremove ⊢
  refine stored_of_wellFormed hremove.2.1 hsp (put_self _ _ _) fun x hx => unlink_frame ?_ ?_
  · exact fun h => hx (h ▸ lastOf_mem_nodes l us vs)
  · exact fun h => hx (h ▸ firstOf_mem_nodes l us vs)

theorem wp_listPopFront_stored (hl : F l = some (e :: xs)) (hsp : Spaced (F.put l xs)) :
    wp (listPopFront l) (linksAt m) fun r h' => r = some e ∧
      Stored m (storeLinks m h') (F.put l xs) (nodes l xs) := by
  have hpop := wp_listPopFront hwf hl
  rw [wp_listPopFront_iff hwf hl] at hpop ⊢
  refine ⟨rfl, stored_of_wellFormed hpop.2.1 hsp (put_self _ _ _) fun x hx => unlink_frame ?_ ?_⟩
  · exact fun h => hx (h ▸ head_mem_nodes l xs)
  · exact fun h => hx (h ▸ firstOf_mem_nodes l [] xs)

theorem wp_listInit_stored (hne : l.head ≠ l.tail) (hhead : Free F l.head) (htail : Free F l.tail)
    (hsp : Spaced (F.put l [])) :
    wp (listInit l) (linksAt m) fun _ h' =>
      Stored m (storeLinks m h') (F.put l []) (nodes l []) := by
  refine wp_mono (wp_and (wp_listInit hwf hne fun l' ys hl' _ => ⟨hhead l' ys hl', htail l' ys hl'⟩)
    (wp_listInit_frame (linksAt m) l)) ?_
  rintro - h' ⟨hwf', hframe⟩
  refine stored_of_wellFormed hwf' hsp (put_self _ _ _) fun x hx => hframe x ?_ ?_
  · exact fun h => hx (h ▸ head_mem_nodes l [])
  · exact fun h => hx (h ▸ tail_mem_nodes l [])

end

end Functions

end Pintos.LibKernel.ListMemory
