import Pintos.LibKernel.List

/-!
# Families of lists

A family gives each of a set of lists its sequence of elements. A heap is well formed for a family
when the nodes of every list are linked from head to tail, in both directions and with null links
at the two ends, and no node is in two lists or twice in one. `WellFormed.unlink` and
`WellFormed.link` say what taking a range out of a list and putting a range of free nodes into a
list do to the family; the functions of `list.c` that change a list do one or both of these.
-/

set_option autoImplicit false

namespace Pintos.LibKernel.ListFamily

open Function Lib.LinkedNodes LibKernel.List

variable {ν : Type} {l : KList ν} {us vs : List ν}

/-! ## Lists and their nodes -/

/-- The nodes of a list with the elements `xs`, with its headers. -/
def nodes (l : KList ν) (xs : List ν) : List ν := l.head :: xs ++ [l.tail]

/-- In the heap, `l` is a list of the elements `xs`. -/
structure IsList (h : Heap ν) (l : KList ν) (xs : List ν) : Prop where
  linked : Linked h (nodes l xs)
  nodup : (nodes l xs).Nodup
  headPrev : (h l.head).prev = none
  tailNext : (h l.tail).next = none

/-- The element before a position: the last of the elements `us` that precede it, or the head. -/
def lastOf (l : KList ν) (us : List ν) : ν := us.getLastD l.head

/-- The element at a position: the first of the elements `vs` from there on, or the tail. -/
def firstOf (l : KList ν) (vs : List ν) : ν := vs.headD l.tail

@[simp] theorem firstOf_nil (l : KList ν) : firstOf l [] = l.tail := rfl

@[simp] theorem firstOf_cons (l : KList ν) (x : ν) (vs : List ν) : firstOf l (x :: vs) = x := rfl

@[simp] theorem lastOf_nil (l : KList ν) : lastOf l [] = l.head := rfl

@[simp] theorem lastOf_concat (l : KList ν) (us : List ν) (x : ν) : lastOf l (us ++ [x]) = x := by
  simp [lastOf]

/-- The nodes around a position. -/
theorem nodes_around (l : KList ν) (us vs : List ν) :
    ∃ pre post, l.head :: us = pre ++ [lastOf l us] ∧ vs ++ [l.tail] = firstOf l vs :: post := by
  have hfront : ∃ pre, l.head :: us = pre ++ [lastOf l us] := by
    induction us using List.reverseRecOn with
    | nil => exact ⟨[], rfl⟩
    | append_singleton us x _ =>
      rw [lastOf_concat]
      exact ⟨l.head :: us, rfl⟩
  have hback : ∃ post, vs ++ [l.tail] = firstOf l vs :: post := by
    cases vs with
    | nil => exact ⟨[], rfl⟩
    | cons x vs => exact ⟨vs ++ [l.tail], rfl⟩
  obtain ⟨pre, hpre⟩ := hfront
  obtain ⟨post, hpost⟩ := hback
  exact ⟨pre, post, hpre, hpost⟩

theorem nodes_append (l : KList ν) (us rng vs : List ν) :
    nodes l (us ++ rng ++ vs) = (l.head :: us) ++ rng ++ (vs ++ [l.tail]) := by
  simp [nodes]

theorem nodes_perm (l : KList ν) (us rng vs : List ν) :
    (nodes l (us ++ rng ++ vs)).Perm (rng ++ nodes l (us ++ vs)) := by
  rw [nodes_append, nodes, ← List.cons_append, List.append_assoc (l.head :: us) vs]
  exact (List.perm_append_comm.append_right _).trans (by rw [List.append_assoc])

theorem head_mem_nodes (l : KList ν) (xs : List ν) : l.head ∈ nodes l xs :=
  List.mem_cons_self

theorem tail_mem_nodes (l : KList ν) (xs : List ν) : l.tail ∈ nodes l xs := by
  simp [nodes]

theorem mem_nodes_of_mem {xs : List ν} {x : ν} (hx : x ∈ xs) : x ∈ nodes l xs := by
  simp [nodes, hx]

theorem firstOf_mem_nodes (l : KList ν) (us vs : List ν) : firstOf l vs ∈ nodes l (us ++ vs) := by
  cases vs with
  | nil => exact tail_mem_nodes l _
  | cons x vs => exact mem_nodes_of_mem (by simp)

theorem lastOf_mem_nodes (l : KList ν) (us vs : List ν) : lastOf l us ∈ nodes l (us ++ vs) := by
  induction us using List.reverseRecOn with
  | nil => exact head_mem_nodes l _
  | append_singleton us x _ =>
    exact mem_nodes_of_mem (by simp)

/-- The head does not come after anything. -/
theorem head_ne_firstOf (hnd : (nodes l (us ++ vs)).Nodup) :
    l.head ≠ firstOf l vs := by
  rw [nodes, List.cons_append, List.nodup_cons] at hnd
  cases vs with
  | nil => exact fun e => hnd.1 (by simp [e])
  | cons x vs => exact fun e => hnd.1 (by simp [e])

/-- The tail does not come before anything. -/
theorem tail_ne_lastOf (hnd : (nodes l (us ++ vs)).Nodup) :
    l.tail ≠ lastOf l us := by
  have hdisj : (l.head :: (us ++ vs)).Disjoint [l.tail] := List.disjoint_of_nodup_append hnd
  induction us using List.reverseRecOn with
  | nil => exact fun e => hdisj List.mem_cons_self (by simp [e])
  | append_singleton us x _ =>
    rw [lastOf_concat]
    rintro rfl
    exact hdisj (a := l.tail) (by simp) (by simp)

theorem elem_ne_headers {xs : List ν} (hnd : (nodes l xs).Nodup) {x : ν} (hx : x ∈ xs) :
    x ≠ l.head ∧ x ≠ l.tail := by
  rw [nodes, List.cons_append, List.nodup_cons] at hnd
  constructor
  · rintro rfl
    exact hnd.1 (List.mem_append_left _ hx)
  · rintro rfl
    exact List.disjoint_of_nodup_append hnd.2 hx (List.mem_singleton.2 rfl)

/-- The elements of a range are not its neighbours. -/
theorem range_ne {rng : List ν} (hnd : (nodes l (us ++ rng ++ vs)).Nodup) :
    ∀ x ∈ rng, x ≠ lastOf l us ∧ x ≠ firstOf l vs := by
  obtain ⟨pre, post, hpre, hpost⟩ := nodes_around l us vs
  rw [nodes_append, hpre, hpost] at hnd
  exact (apart_of_nodup hnd).range

section IsListLemmas

variable {h h' : Heap ν} {l : KList ν} {us rng vs xs : List ν}

/-- The position behind an element. -/
theorem IsList.shift {x : ν} (hl : IsList h l (us ++ x :: vs)) : IsList h l ((us ++ [x]) ++ vs) :=
  List.append_cons us x vs ▸ hl

/-- An element is not the end of its list. -/
theorem IsList.ne_end {x : ν} (hl : IsList h l (us ++ x :: vs)) : some x ≠ listEnd l :=
  fun e => (elem_ne_headers hl.nodup (by simp)).2 (Option.some.inj e)

/-- The neighbours at a position lead to each other. -/
theorem IsList.joined (hl : IsList h l (us ++ vs)) : Joined h (lastOf l us) (firstOf l vs) := by
  obtain ⟨pre, post, hpre, hpost⟩ := nodes_around l us vs
  have hlinked := hl.linked
  rw [nodes, ← List.cons_append, List.append_assoc, hpre, hpost] at hlinked
  exact (linked_append.1 hlinked).2.2 _ (by simp) _ (by simp)

theorem IsList.joined_head (hl : IsList h l xs) : Joined h l.head (firstOf l xs) := by
  have hl' : IsList h l ([] ++ xs) := hl
  exact hl'.joined

theorem IsList.joined_tail (hl : IsList h l xs) : Joined h (lastOf l xs) l.tail := by
  rw [← List.append_nil xs] at hl
  exact hl.joined

/-- Links elsewhere do not count. -/
theorem IsList.frame (hl : IsList h l xs) (hsame : ∀ x ∈ nodes l xs, h' x = h x) :
    IsList h' l xs where
  linked := hl.linked.frame hsame
  nodup := hl.nodup
  headPrev := by rw [hsame _ (head_mem_nodes l xs), hl.headPrev]
  tailNext := by rw [hsame _ (tail_mem_nodes l xs), hl.tailNext]

variable [DecidableEq ν]

/-- A range taken out of a list. -/
theorem IsList.unlink (hl : IsList h l (us ++ rng ++ vs)) :
    IsList (unlink h (lastOf l us) (firstOf l vs)) l (us ++ vs) ∧
      Linked (unlink h (lastOf l us) (firstOf l vs)) rng := by
  obtain ⟨pre, post, hpre, hpost⟩ := nodes_around l us vs
  have hlinked := hl.linked
  have hnd := hl.nodup
  have hnodes : nodes l (us ++ vs) = (pre ++ [lastOf l us]) ++ firstOf l vs :: post := by
    rw [nodes, ← List.cons_append, List.append_assoc, hpre, hpost]
  have hsub : (nodes l (us ++ vs)).Nodup := by
    refine hnd.sublist ?_
    rw [nodes_append, ← List.append_nil us, nodes_append, List.append_nil]
    simp
  rw [nodes_append, hpre, hpost] at hlinked hnd
  obtain ⟨hrest, hrng⟩ := unlink_linked hlinked hnd
  refine ⟨⟨by rw [hnodes]; exact hrest, hsub, ?_, ?_⟩, hrng⟩
  · rw [unlink_prev, if_neg (head_ne_firstOf hsub), hl.headPrev]
  · rw [unlink_next, if_neg (tail_ne_lastOf hsub), hl.tailNext]

/-- A range put into a list. -/
theorem IsList.link {f last : ν} (hl : IsList h l (us ++ vs)) (hr : Linked h rng)
    (hrnd : rng.Nodup) (hdisj : rng.Disjoint (nodes l (us ++ vs))) (hf : rng.head? = some f)
    (hlast : rng.getLast? = some last) :
    IsList (link h (lastOf l us) f last (firstOf l vs)) l (us ++ rng ++ vs) := by
  obtain ⟨pre, post, hpre, hpost⟩ := nodes_around l us vs
  have hfm : f ∈ rng := List.mem_of_head? hf
  have hlm : last ∈ rng := List.mem_of_getLast? hlast
  have hlinked := hl.linked
  rw [nodes, ← List.cons_append, List.append_assoc, hpre, hpost] at hlinked
  have hnd : (nodes l (us ++ rng ++ vs)).Nodup :=
    (nodes_perm l us rng vs).nodup_iff.2 (hrnd.append hl.nodup hdisj)
  have hnodes : nodes l (us ++ rng ++ vs) =
      pre ++ [lastOf l us] ++ rng ++ firstOf l vs :: post := by
    rw [nodes_append, hpre, hpost]
  refine ⟨?_, hnd, ?_, ?_⟩
  · rw [hnodes]
    obtain ⟨hfront, hback, -⟩ := linked_append.1 hlinked
    exact link_linked hfront hback hr hf hlast (by rw [← hnodes]; exact hnd)
  · have hne : l.head ≠ f := by
      rintro rfl
      exact hdisj hfm (head_mem_nodes l _)
    rw [link_prev, if_neg (head_ne_firstOf hl.nodup), if_neg hne, hl.headPrev]
  · have hne : l.tail ≠ last := by
      rintro rfl
      exact hdisj hlm (tail_mem_nodes l _)
    rw [link_next, if_neg (tail_ne_lastOf hl.nodup), if_neg hne, hl.tailNext]

end IsListLemmas

/-! ## Families -/

/-- The lists there are, each with its elements. -/
abbrev Family (ν : Type) : Type := KList ν → Option (List ν)

/-- The heap holds the lists of the family. -/
structure WellFormed (h : Heap ν) (F : Family ν) : Prop where
  isList : ∀ l xs, F l = some xs → IsList h l xs
  apart : ∀ l l' xs xs', F l = some xs → F l' = some xs' → l ≠ l' →
    (nodes l xs).Disjoint (nodes l' xs')

/-- The node is in no list of the family. -/
def Free (F : Family ν) (x : ν) : Prop := ∀ l xs, F l = some xs → x ∉ nodes l xs

variable [DecidableEq ν]

/-- The family with the elements of `l` replaced by `xs`. -/
def Family.put (F : Family ν) (l : KList ν) (xs : List ν) : Family ν :=
  update F l (some xs)

section Put

variable (F : Family ν) (l l' : KList ν) (xs ys : List ν)

@[simp] theorem put_self : F.put l xs l = some xs := update_self ..

theorem put_of_ne {l l' : KList ν} (hne : l' ≠ l) : F.put l xs l' = F l' :=
  update_of_ne hne ..

/-- The lists of the family: the one that was put, and the others. -/
theorem of_put {F : Family ν} {l l' : KList ν} {xs ys : List ν} (h : F.put l xs l' = some ys) :
    l = l' ∧ xs = ys ∨ l' ≠ l ∧ F l' = some ys := by
  by_cases hne : l' = l
  · subst hne
    exact .inl ⟨rfl, Option.some.inj ((put_self ..).symm.trans h)⟩
  · exact .inr ⟨hne, (put_of_ne _ _ hne).symm.trans h⟩

@[simp] theorem put_put : (F.put l xs).put l ys = F.put l ys := update_idem ..

theorem put_eq_self {F : Family ν} {l : KList ν} {xs : List ν} (h : F l = some xs) :
    F.put l xs = F := by
  rw [Family.put, ← h, update_eq_self]

end Put

section WellFormedLemmas

variable {h h' : Heap ν} {F : Family ν} {l : KList ν} {us rng vs xs xs' : List ν}

/-- A list may be put in place of another, or added, when its nodes and the changes of the heap are
outside the other lists. -/
theorem WellFormed.replace (hwf : WellFormed h F) (hnew : IsList h' l xs')
    (hother : ∀ l' ys, F l' = some ys → l' ≠ l →
      (nodes l' ys).Disjoint (nodes l xs') ∧ ∀ x ∈ nodes l' ys, h' x = h x) :
    WellFormed h' (F.put l xs') := by
  refine ⟨?_, ?_⟩
  · intro l' ys hl'
    rcases of_put hl' with ⟨rfl, rfl⟩ | ⟨hne, hl'⟩
    · exact hnew
    · exact (hwf.isList l' ys hl').frame (hother l' ys hl' hne).2
  · intro l₁ l₂ ys zs h₁ h₂ hne
    rcases of_put h₁ with ⟨rfl, rfl⟩ | ⟨hl₁, h₁⟩ <;> rcases of_put h₂ with ⟨rfl, rfl⟩ | ⟨hl₂, h₂⟩
    · exact absurd rfl hne
    · exact (hother l₂ zs h₂ hl₂).1.symm
    · exact (hother l₁ ys h₁ hl₁).1
    · exact hwf.apart l₁ l₂ ys zs h₁ h₂ hne

/-- A change inside one list and the free nodes. -/
theorem WellFormed.change (hwf : WellFormed h F) (hl : F l = some xs) (hnew : IsList h' l xs')
    (hsub : ∀ x ∈ nodes l xs', x ∈ nodes l xs ∨ Free F x)
    (hsame : ∀ x, x ∉ nodes l xs → ¬ Free F x → h' x = h x) :
    WellFormed h' (F.put l xs') := by
  refine hwf.replace hnew ?_
  intro l' ys hl' hne
  -- the nodes of another list are neither in `l` nor free
  have hnot : ∀ x ∈ nodes l' ys, x ∉ nodes l xs ∧ ¬ Free F x := by
    intro x hx
    exact ⟨fun hx' => hwf.apart l' l ys xs hl' hl hne hx hx', fun hfree => hfree l' ys hl' hx⟩
  constructor
  · intro x hx hx'
    rcases hsub x hx' with hx'' | hfree
    · exact (hnot x hx).1 hx''
    · exact (hnot x hx).2 hfree
  · exact fun x hx => hsame x (hnot x hx).1 (hnot x hx).2

omit [DecidableEq ν] in
/-- Links of free nodes do not count. -/
theorem WellFormed.frame (hwf : WellFormed h F) (hsame : ∀ x, ¬ Free F x → h' x = h x) :
    WellFormed h' F where
  isList := fun l xs hl => (hwf.isList l xs hl).frame fun x hx =>
    hsame x fun hfree => hfree l xs hl hx
  apart := hwf.apart

omit [DecidableEq ν] in
/-- Lists may be left out of consideration. -/
theorem WellFormed.mono {F' : Family ν} (hwf : WellFormed h F)
    (hsub : ∀ l xs, F' l = some xs → F l = some xs) : WellFormed h F' where
  isList := fun l xs hl => hwf.isList l xs (hsub l xs hl)
  apart := fun l l' xs xs' hl hl' => hwf.apart l l' xs xs' (hsub l xs hl) (hsub l' xs' hl')

/-- Taking a range out of a list: the range stays linked, and its nodes are free. -/
theorem WellFormed.unlink (hwf : WellFormed h F) (hl : F l = some (us ++ rng ++ vs)) :
    WellFormed (unlink h (lastOf l us) (firstOf l vs)) (F.put l (us ++ vs)) ∧
      Linked (unlink h (lastOf l us) (firstOf l vs)) rng ∧
      ∀ x ∈ rng, Free (F.put l (us ++ vs)) x := by
  have hlist := hwf.isList l _ hl
  obtain ⟨hnew, hrng⟩ := hlist.unlink
  have hsub : ∀ x ∈ nodes l (us ++ vs), x ∈ nodes l (us ++ rng ++ vs) := by
    intro x hx
    simp only [nodes, List.mem_append, List.mem_cons] at hx ⊢
    tauto
  refine ⟨hwf.change hl hnew (fun x hx => Or.inl (hsub x hx)) ?_, hrng, ?_⟩
  · intro x hx _
    refine unlink_frame ?_ ?_
    · rintro rfl
      exact hx (hsub _ (lastOf_mem_nodes l us vs))
    · rintro rfl
      exact hx (hsub _ (firstOf_mem_nodes l us vs))
  · intro x hx l' ys hl' hmem
    rcases of_put hl' with ⟨rfl, rfl⟩ | ⟨hne, hl'⟩
    · -- a node of the range is not also before or after it
      have hnd := (nodes_perm l us rng vs).nodup_iff.1 hlist.nodup
      exact List.disjoint_of_nodup_append hnd hx hmem
    · exact hwf.apart l' l ys _ hl' hl hne hmem (mem_nodes_of_mem (by simp [hx]))

/-- Putting a range of free nodes into a list. -/
theorem WellFormed.link {f last : ν} (hwf : WellFormed h F) (hl : F l = some (us ++ vs))
    (hr : Linked h rng) (hrnd : rng.Nodup) (hfree : ∀ x ∈ rng, Free F x)
    (hf : rng.head? = some f) (hlast : rng.getLast? = some last) :
    WellFormed (link h (lastOf l us) f last (firstOf l vs)) (F.put l (us ++ rng ++ vs)) := by
  have hdisj : rng.Disjoint (nodes l (us ++ vs)) := fun x hx hx' => hfree x hx l _ hl hx'
  have hfm : f ∈ rng := List.mem_of_head? hf
  have hlm : last ∈ rng := List.mem_of_getLast? hlast
  refine hwf.change hl ((hwf.isList l _ hl).link hr hrnd hdisj hf hlast) ?_ ?_
  · intro x hx
    by_cases hxr : x ∈ rng
    · exact Or.inr (hfree x hxr)
    · simp only [nodes, List.mem_append, List.mem_cons] at hx ⊢
      tauto
  · intro x hx hnotFree
    refine link_frame ?_ ?_ ?_ ?_
    · rintro rfl
      exact hx (lastOf_mem_nodes l us vs)
    · rintro rfl
      exact hnotFree (hfree _ hfm)
    · rintro rfl
      exact hnotFree (hfree _ hlm)
    · rintro rfl
      exact hx (firstOf_mem_nodes l us vs)

end WellFormedLemmas

end Pintos.LibKernel.ListFamily
