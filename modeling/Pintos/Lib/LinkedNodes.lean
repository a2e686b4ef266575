import Mathlib.Tactic
import Mathlib.Data.List.Chain

/-!
# Doubly linked nodes

A heap gives every node a link to the previous and to the next node, either of which may be null.
`Linked h ns` says that the nodes `ns` follow each other in `h`, in both directions. It says
nothing of the links that lead out of the sequence at its ends, which is what makes sequences
composable: `linked_append` cuts one in two anywhere.

`unlink` closes the gap that a range leaves behind, `link` puts a range between two neighbours.
Both are given by what they do to each link, and both keep sequences that they do not touch.
-/

set_option autoImplicit false

namespace Pintos.Lib.LinkedNodes

open List

variable {ν : Type}

/-- The two links of a node. -/
@[ext] structure Links (ν : Type) where
  prev : Option ν
  next : Option ν

/-- The links of all nodes. -/
abbrev Heap (ν : Type) : Type := ν → Links ν

section Stores

variable [DecidableEq ν]

/-- Store a previous link. -/
def setPrev (h : Heap ν) (x : ν) (p : Option ν) : Heap ν :=
  Function.update h x { h x with prev := p }

/-- Store a next link. -/
def setNext (h : Heap ν) (x : ν) (n : Option ν) : Heap ν :=
  Function.update h x { h x with next := n }

variable (h : Heap ν) (x y : ν) (p : Option ν)

theorem setPrev_prev : (setPrev h x p y).prev = if y = x then p else (h y).prev := by
  by_cases hyx : y = x
  · subst hyx
    simp [setPrev]
  · simp [setPrev, hyx]

theorem setPrev_next : (setPrev h x p y).next = (h y).next := by
  by_cases hyx : y = x
  · subst hyx
    simp [setPrev]
  · simp [setPrev, hyx]

theorem setNext_prev : (setNext h x p y).prev = (h y).prev := by
  by_cases hyx : y = x
  · subst hyx
    simp [setNext]
  · simp [setNext, hyx]

theorem setNext_next : (setNext h x p y).next = if y = x then p else (h y).next := by
  by_cases hyx : y = x
  · subst hyx
    simp [setNext]
  · simp [setNext, hyx]

end Stores

/-! ## Sequences of nodes -/

/-- The node `b` comes after `a`. -/
def Joined (h : Heap ν) (a b : ν) : Prop := (h a).next = some b ∧ (h b).prev = some a

/-- The nodes follow each other. -/
def Linked (h : Heap ν) (ns : List ν) : Prop := ns.IsChain (Joined h)

variable {h h' : Heap ν} {us vs ns : List ν} {a b : ν}

theorem linked_singleton (a : ν) : Linked h [a] := isChain_singleton a

/-- A sequence may be cut anywhere. -/
theorem linked_append :
    Linked h (us ++ vs) ↔
      Linked h us ∧ Linked h vs ∧ ∀ a ∈ us.getLast?, ∀ b ∈ vs.head?, Joined h a b :=
  isChain_append

/-- Only the next links of all nodes but the last and the previous links of all nodes but the first
count. -/
theorem Linked.congr (hl : Linked h ns) (hnext : ∀ x ∈ ns.dropLast, (h' x).next = (h x).next)
    (hprev : ∀ x ∈ ns.tail, (h' x).prev = (h x).prev) : Linked h' ns := by
  induction ns with
  | nil => exact isChain_nil
  | cons a ns ih =>
    cases ns with
    | nil => exact linked_singleton a
    | cons b ns =>
      obtain ⟨⟨hn, hp⟩, hrest⟩ := isChain_cons_cons.1 hl
      refine isChain_cons_cons.2 ⟨⟨?_, ?_⟩, ih hrest ?_ ?_⟩
      · rw [hnext a (by simp), hn]
      · rw [hprev b (by simp), hp]
      · intro x hx
        exact hnext x (by rw [dropLast_cons_cons]; exact mem_cons_of_mem a hx)
      · intro x hx
        exact hprev x (mem_of_mem_tail hx)

/-- Links elsewhere do not count. -/
theorem Linked.frame (hl : Linked h ns) (hsame : ∀ x ∈ ns, h' x = h x) :
    Linked h' ns :=
  hl.congr (fun x hx => by rw [hsame x (mem_of_mem_dropLast hx)])
    (fun x hx => by rw [hsame x (mem_of_mem_tail hx)])

/-- Links that lead out of a sequence at its end do not count. -/
theorem Linked.frame_last (hl : Linked h (us ++ [a])) (hsame : ∀ x ∈ us, h' x = h x)
    (hprev : (h' a).prev = (h a).prev) : Linked h' (us ++ [a]) := by
  refine hl.congr ?_ ?_
  · intro x hx
    rw [dropLast_concat] at hx
    rw [hsame x hx]
  · intro x hx
    rcases mem_append.1 (mem_of_mem_tail hx) with hx | hx
    · rw [hsame x hx]
    · rw [mem_singleton.1 hx, hprev]

/-- Links that lead out of a sequence at its front do not count. -/
theorem Linked.frame_first (hl : Linked h (b :: vs)) (hsame : ∀ x ∈ vs, h' x = h x)
    (hnext : (h' b).next = (h b).next) : Linked h' (b :: vs) := by
  refine hl.congr ?_ ?_
  · intro x hx
    rcases mem_cons.1 (mem_of_mem_dropLast hx) with rfl | hx
    · exact hnext
    · rw [hsame x hx]
  · intro x hx
    rw [hsame x hx]

/-! ## Taking a range out and putting it in -/

section Splice

variable [DecidableEq ν] {x : ν}

/-- Make `a` and `b` neighbours. -/
def unlink (h : Heap ν) (a b : ν) : Heap ν := setPrev (setNext h a (some b)) b (some a)

/-- Put the range from `f` to `l` between `a` and `b`. -/
def link (h : Heap ν) (a f l b : ν) : Heap ν :=
  setPrev (setNext (setNext (setPrev h f (some a)) l (some b)) a (some f)) b (some l)

theorem unlink_prev (h : Heap ν) (a b x : ν) :
    (unlink h a b x).prev = if x = b then some a else (h x).prev := by
  rw [unlink, setPrev_prev, setNext_prev]

theorem unlink_next (h : Heap ν) (a b x : ν) :
    (unlink h a b x).next = if x = a then some b else (h x).next := by
  rw [unlink, setPrev_next, setNext_next]

theorem link_prev (h : Heap ν) (a f l b x : ν) :
    (link h a f l b x).prev = if x = b then some l else if x = f then some a else (h x).prev := by
  rw [link, setPrev_prev, setNext_prev, setNext_prev, setPrev_prev]

theorem link_next (h : Heap ν) (a f l b x : ν) :
    (link h a f l b x).next = if x = a then some f else if x = l then some b else (h x).next := by
  rw [link, setPrev_next, setNext_next, setNext_next, setPrev_next]

/-- Unlinking changes links of the two new neighbours only. -/
theorem unlink_frame {h : Heap ν} (ha : x ≠ a) (hb : x ≠ b) : unlink h a b x = h x := by
  ext1
  · rw [unlink_prev, if_neg hb]
  · rw [unlink_next, if_neg ha]

/-- Linking changes links of the neighbours and of the ends of the range only. -/
theorem link_frame {h : Heap ν} {f l : ν} (ha : x ≠ a) (hf : x ≠ f) (hl : x ≠ l) (hb : x ≠ b) :
    link h a f l b x = h x := by
  ext1
  · rw [link_prev, if_neg hb, if_neg hf]
  · rw [link_next, if_neg ha, if_neg hl]

variable {us rng vs : List ν} {a f l b : ν}

/-- The parts of a sequence without repetitions share no node. -/
structure Apart (us rng vs : List ν) (a b : ν) : Prop where
  ends : a ≠ b
  front : ∀ x ∈ us, x ≠ a ∧ x ≠ b ∧ x ∉ rng
  range : ∀ x ∈ rng, x ≠ a ∧ x ≠ b
  back : ∀ x ∈ vs, x ≠ a ∧ x ≠ b ∧ x ∉ rng
  nodup : rng.Nodup

omit [DecidableEq ν] in
theorem apart_of_nodup (hnd : (us ++ [a] ++ rng ++ b :: vs).Nodup) : Apart us rng vs a b := by
  constructor <;> grind

/-- What is left after a range has been taken out is linked, and so is the range. -/
theorem unlink_linked (hl : Linked h (us ++ [a] ++ rng ++ b :: vs))
    (hnd : (us ++ [a] ++ rng ++ b :: vs).Nodup) :
    Linked (unlink h a b) (us ++ [a] ++ b :: vs) ∧ Linked (unlink h a b) rng := by
  obtain ⟨hfront, hback, -⟩ := linked_append.1 hl
  obtain ⟨hfront, hrng, -⟩ := linked_append.1 hfront
  obtain ⟨hab, hus, hmid, hvs, -⟩ := apart_of_nodup hnd
  refine ⟨linked_append.2 ⟨?_, ?_, ?_⟩, ?_⟩
  · exact hfront.frame_last (fun x hx => unlink_frame (hus x hx).1 (hus x hx).2.1)
      (by rw [unlink_prev, if_neg hab])
  · exact hback.frame_first (fun x hx => unlink_frame (hvs x hx).1 (hvs x hx).2.1)
      (by rw [unlink_next, if_neg hab.symm])
  · intro x hx y hy
    rw [List.getLast?_concat, Option.mem_some_iff] at hx
    rw [List.head?_cons, Option.mem_some_iff] at hy
    subst hx hy
    exact ⟨by rw [unlink_next, if_pos rfl], by rw [unlink_prev, if_pos rfl]⟩
  · exact hrng.frame fun x hx => unlink_frame (hmid x hx).1 (hmid x hx).2

/-- A range that has been put between two neighbours is linked with them. -/
theorem link_linked (hfront : Linked h (us ++ [a])) (hback : Linked h (b :: vs))
    (hr : Linked h rng) (hf : rng.head? = some f) (hlast : rng.getLast? = some l)
    (hnd : (us ++ [a] ++ rng ++ b :: vs).Nodup) :
    Linked (link h a f l b) (us ++ [a] ++ rng ++ b :: vs) := by
  have hfm : f ∈ rng := mem_of_head? hf
  have hlm : l ∈ rng := mem_of_getLast? hlast
  obtain ⟨hab, hus, hmid, hvs, hrnd⟩ := apart_of_nodup hnd
  have hnotIn : ∀ {x}, x ∉ rng → x ≠ f ∧ x ≠ l :=
    fun hx => ⟨fun e => hx (e ▸ hfm), fun e => hx (e ▸ hlm)⟩
  refine linked_append.2 ⟨linked_append.2 ⟨?_, ?_, ?_⟩, ?_, ?_⟩
  · refine hfront.frame_last ?_ (by rw [link_prev, if_neg hab, if_neg (hmid f hfm).1.symm])
    intro x hx
    obtain ⟨hxa, hxb, hxr⟩ := hus x hx
    exact link_frame hxa (hnotIn hxr).1 (hnotIn hxr).2 hxb
  · -- inside the range only its own links count, and of its ends only the outer ones have changed
    refine hr.congr ?_ ?_
    · intro x hx
      have hxl : x ≠ l := by
        obtain ⟨ys, rfl⟩ := List.getLast?_eq_some_iff.1 hlast
        rw [dropLast_concat] at hx
        rintro rfl
        exact disjoint_of_nodup_append hrnd hx (mem_singleton.2 rfl)
      rw [link_next, if_neg (hmid x (mem_of_mem_dropLast hx)).1, if_neg hxl]
    · intro x hx
      have hxf : x ≠ f := by
        obtain ⟨ys, rfl⟩ := List.head?_eq_some_iff.1 hf
        rintro rfl
        exact (nodup_cons.1 hrnd).1 hx
      rw [link_prev, if_neg (hmid x (mem_of_mem_tail hx)).2, if_neg hxf]
  · intro x hx y hy
    rw [List.getLast?_concat, Option.mem_some_iff] at hx
    rw [hf, Option.mem_some_iff] at hy
    subst hx hy
    exact ⟨by rw [link_next, if_pos rfl], by rw [link_prev, if_neg (hmid _ hfm).2, if_pos rfl]⟩
  · refine hback.frame_first ?_ (by rw [link_next, if_neg hab.symm, if_neg (hmid l hlm).2.symm])
    intro x hx
    obtain ⟨hxa, hxb, hxr⟩ := hvs x hx
    exact link_frame hxa (hnotIn hxr).1 (hnotIn hxr).2 hxb
  · intro x hx y hy
    rw [List.getLast?_append, hlast, Option.some_or, Option.mem_some_iff] at hx
    rw [List.head?_cons, Option.mem_some_iff] at hy
    subst hx hy
    exact ⟨by rw [link_next, if_neg (hmid _ hlm).1, if_pos rfl], by rw [link_prev, if_pos rfl]⟩

end Splice

end Pintos.Lib.LinkedNodes
