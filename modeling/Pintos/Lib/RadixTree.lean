import Mathlib.Tactic

/-!
# Trees with numbered branches

Nodes of any type with at most `b` numbered children each. `postorder` lists a node of height `d`
and everything below it, children first. Where a node stands in a tree is its height and the
number that the branches on the way to it are the digits of. A map `pos` from nodes to such places
that fits the children (`Located`) makes the tree a tree: no node is listed twice, and the nodes
listed from the root are those that have a place.
-/

set_option autoImplicit false

namespace Pintos.Lib.RadixTree

open List

variable {α : Type} (c : α → Nat → Option α) (b : Nat)

/-- A node of height `d` after everything below it. -/
def postorder : Nat → α → List α
  | 0, f => [f]
  | d + 1, f => ((List.range b).flatMap fun i =>
      match c f i with
      | none => []
      | some g => postorder d g) ++ [f]

/-- The nodes at and below child `i` of the node `f` of height `d + 1`. -/
def below (d : Nat) (f : α) (i : Nat) : List α :=
  match c f i with
  | none => []
  | some g => postorder c b d g

theorem postorder_succ (d : Nat) (f : α) :
    postorder c b (d + 1) f = (List.range b).flatMap (below c b d f) ++ [f] := rfl

/-- The places of the nodes: the root's is `top` with no digits, a child's has one digit more, and
each node but the root is a child. -/
structure Located (top : Nat) (root : α) (pos : α → Option (Nat × Nat)) : Prop where
  root_iff : ∀ f k, pos f = some (top, k) ↔ f = root ∧ k = 0
  down : ∀ f d k, pos f = some (d + 1, k) → ∀ i < b, ∀ g, c f i = some g →
    pos g = some (d, b * k + i)
  up : ∀ g d k, pos g = some (d, k) → d ≤ top ∧
    (d ≠ top → ∃ f, pos f = some (d + 1, k / b) ∧ c f (k % b) = some g)

section Places

variable {c b} {top : Nat} {root : α} {pos : α → Option (Nat × Nat)}

theorem mem_postorder_self (d : Nat) (f : α) : f ∈ postorder c b d f := by
  cases d with
  | zero => exact mem_singleton.2 rfl
  | succ d => exact mem_append_right _ (mem_singleton.2 rfl)

section

variable (h : Located c b top root pos)
include h

/-- What is listed from a node has a place below it. -/
theorem Located.pos_of_mem (d : Nat) : ∀ (f : α) (k : Nat),
    pos f = some (d, k) → ∀ x ∈ postorder c b d f,
      ∃ e k', pos x = some (e, k') ∧ e ≤ d ∧ k' / b ^ (d - e) = k := by
  induction d with
  | zero =>
    intro f k hf x hx
    obtain rfl := mem_singleton.1 hx
    exact ⟨0, k, hf, le_rfl, by simp⟩
  | succ d ih =>
    intro f k hf x hx
    rw [postorder_succ, mem_append, mem_flatMap] at hx
    rcases hx with ⟨i, hi, hx⟩ | hx
    · have hib : i < b := mem_range.1 hi
      rw [below] at hx
      cases hg : c f i with
      | none =>
        rw [hg] at hx
        cases hx
      | some g =>
        rw [hg] at hx
        obtain ⟨e, k', hpos, he, hk⟩ := ih g _ (h.down f d k hf i hib g hg) x hx
        refine ⟨e, k', hpos, by omega, ?_⟩
        -- one more digit is dropped
        have hsub : d + 1 - e = d - e + 1 := by omega
        rw [hsub, pow_succ, ← Nat.div_div_eq_div_mul, hk,
          Nat.mul_add_div (by omega), Nat.div_eq_of_lt hib, Nat.add_zero]
    · obtain rfl := mem_singleton.1 hx
      exact ⟨d + 1, k, hf, le_rfl, by simp⟩

/-- Different children have nothing in common. -/
theorem Located.below_disjoint {d : Nat} {f : α} {k : Nat} (hf : pos f = some (d + 1, k))
    {i j : Nat} (hi : i < b) (hj : j < b) (hij : i ≠ j) {x : α} (hxi : x ∈ below c b d f i) :
    x ∉ below c b d f j := by
  intro hxj
  rw [below] at hxi hxj
  cases hgi : c f i with
  | none =>
    rw [hgi] at hxi
    cases hxi
  | some g =>
    cases hgj : c f j with
    | none =>
      rw [hgj] at hxj
      cases hxj
    | some g' =>
      rw [hgi] at hxi
      rw [hgj] at hxj
      obtain ⟨e, n, hpos, -, hn⟩ := h.pos_of_mem d g _ (h.down f d k hf i hi g hgi) x hxi
      obtain ⟨e', n', hpos', -, hn'⟩ := h.pos_of_mem d g' _ (h.down f d k hf j hj g' hgj) x hxj
      rw [hpos] at hpos'
      cases hpos'
      omega

/-- No node is listed twice. -/
theorem Located.nodup_postorder (d : Nat) : ∀ (f : α) (k : Nat),
    pos f = some (d, k) → (postorder c b d f).Nodup := by
  induction d with
  | zero => exact fun f k _ => nodup_singleton f
  | succ d ih =>
    intro f k hf
    rw [postorder_succ, nodup_append]
    refine ⟨nodup_flatMap.2 ⟨?_, ?_⟩, nodup_singleton f, ?_⟩
    · intro i hi
      rw [below]
      cases hg : c f i with
      | none => exact nodup_nil
      | some g => exact ih g _ (h.down f d k hf i (mem_range.1 hi) g hg)
    · refine pairwise_iff_getElem.2 ?_
      intro i j hi hj hij x hxi hxj
      rw [getElem_range] at hxi hxj
      rw [length_range] at hi hj
      exact h.below_disjoint hf hi hj (by omega) hxi hxj
    · -- the node itself is higher than what is below it
      intro x hx y hy hxy
      obtain rfl := mem_singleton.1 hy
      subst hxy
      obtain ⟨i, hi, hx⟩ := mem_flatMap.1 hx
      rw [below] at hx
      cases hg : c x i with
      | none =>
        rw [hg] at hx
        cases hx
      | some g =>
        rw [hg] at hx
        have hdown := h.down x d k hf i (mem_range.1 hi) g hg
        obtain ⟨e, n, hpos, he, -⟩ := h.pos_of_mem d g _ hdown x hx
        rw [hf] at hpos
        cases hpos
        omega

/-- Children of a listed node are listed. -/
theorem Located.mem_of_child {g x : α} {e n i : Nat} (hg : pos g = some (e + 1, n)) (hi : i < b)
    (hx : c g i = some x) (d : Nat) :
    ∀ (f : α) (k : Nat), pos f = some (d, k) → g ∈ postorder c b d f →
      x ∈ postorder c b d f := by
  induction d with
  | zero =>
    intro f k hf hmem
    obtain rfl := mem_singleton.1 hmem
    rw [hf] at hg
    cases hg
  | succ d ih =>
    intro f k hf hmem
    rw [postorder_succ, mem_append, mem_flatMap] at hmem ⊢
    rcases hmem with ⟨j, hj, hmem⟩ | hmem
    · refine Or.inl ⟨j, hj, ?_⟩
      rw [below] at hmem ⊢
      cases hc : c f j with
      | none =>
        rw [hc] at hmem
        cases hmem
      | some g' =>
        rw [hc] at hmem
        exact ih g' _ (h.down f d k hf j (mem_range.1 hj) g' hc) hmem
    · obtain rfl := mem_singleton.1 hmem
      refine Or.inl ⟨i, mem_range.2 hi, ?_⟩
      rw [below, hx]
      exact mem_postorder_self d x

/-- The nodes listed from the root are those that have a place. -/
theorem Located.mem_postorder_iff (hb : 0 < b) (x : α) :
    x ∈ postorder c b top root ↔ ∃ p, pos x = some p := by
  have hroot : pos root = some (top, 0) := (h.root_iff root 0).2 ⟨rfl, rfl⟩
  constructor
  · intro hx
    obtain ⟨e, k, hpos, -⟩ := h.pos_of_mem top root 0 hroot x hx
    exact ⟨_, hpos⟩
  · -- from the root down: induction on the distance of the place from the root's
    have key : ∀ n x d k, pos x = some (d, k) → top - d = n → x ∈ postorder c b top root := by
      intro n
      induction n with
      | zero =>
        intro x d k hx hn
        have hd : d = top := by
          have := (h.up x d k hx).1
          omega
        subst hd
        obtain ⟨rfl, -⟩ := (h.root_iff x k).1 hx
        exact mem_postorder_self _ _
      | succ n ih =>
        intro x d k hx hn
        obtain ⟨f, hf, hchild⟩ := (h.up x d k hx).2 (by omega)
        have hmem := ih f (d + 1) _ hf (by omega)
        exact h.mem_of_child hf (Nat.mod_lt _ hb) hchild top root 0 hroot hmem
    rintro ⟨⟨d, k⟩, hx⟩
    exact key _ x d k hx rfl

end

/-- Another way to find children lists the same nodes if it agrees on them. -/
theorem postorder_congr {c' : α → Nat → Option α} (d : Nat) : ∀ f : α,
    (∀ x ∈ postorder c b d f, ∀ i < b, c' x i = c x i) →
      postorder c' b d f = postorder c b d f := by
  induction d with
  | zero => exact fun _ _ => rfl
  | succ d ih =>
    intro f h
    rw [postorder_succ, postorder_succ]
    congr 1
    refine flatMap_congr ?_
    intro i hi
    have hib : i < b := mem_range.1 hi
    rw [below, below, h f (mem_postorder_self _ f) i hib]
    cases hg : c f i with
    | none => rfl
    | some g =>
      refine ih g ?_
      intro x hx
      refine h x ?_
      rw [postorder_succ, mem_append, mem_flatMap]
      refine Or.inl ⟨i, hi, ?_⟩
      rw [below, hg]
      exact hx

end Places

end Pintos.Lib.RadixTree
