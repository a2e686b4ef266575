import Mathlib.Tactic

/-!
# Circular buffers

A queue in an array of `n` slots, with the position `head` where the next element is written and the
position `tail` where the next element is read. One slot stays unused, so that `head = tail` means
empty and full is one element less than `n`. `contents` reads the elements between `tail` and
`head`; `put` appends to it and `drop` leaves out its first element (`contents_put`,
`contents_drop`), however often the positions have wrapped around.
-/

set_option autoImplicit false

namespace Pintos.Lib.RingBuffer

open List

variable {α : Type} {n : Nat}

/-- The position after `pos`. -/
def next (n pos : Nat) : Nat := (pos + 1) % n

/-- An array with two positions in it. -/
structure Buffer (α : Type) where
  buf : Nat → α
  head : Nat
  tail : Nat

namespace Buffer

/-- No element between `tail` and `head`. -/
def empty (r : Buffer α) : Bool := r.head == r.tail

/-- No room for another element. -/
def full (n : Nat) (r : Buffer α) : Bool := next n r.head == r.tail

/-- Write an element at `head`. -/
def put (n : Nat) (r : Buffer α) (a : α) : Buffer α :=
  ⟨Function.update r.buf r.head a, next n r.head, r.tail⟩

/-- The element at `tail`. -/
def front (r : Buffer α) : α := r.buf r.tail

/-- Leave out the element at `tail`. -/
def drop (n : Nat) (r : Buffer α) : Buffer α := ⟨r.buf, r.head, next n r.tail⟩

/-- The number of elements. -/
def count (n : Nat) (r : Buffer α) : Nat :=
  if r.tail ≤ r.head then r.head - r.tail else r.head + n - r.tail

/-- The elements, in the order in which they are read. -/
def contents (n : Nat) (r : Buffer α) : List α :=
  (List.range (r.count n)).map fun i => r.buf ((r.tail + i) % n)

/-- The positions are in the array. -/
structure Valid (n : Nat) (r : Buffer α) : Prop where
  head : r.head < n
  tail : r.tail < n

end Buffer

section Positions

variable {pos i : Nat}

theorem next_lt (h : pos < n) : next n pos < n := Nat.mod_lt _ (by omega)

/-- A position moves by one, or back to the start of the array. -/
theorem next_eq (h : pos < n) : next n pos = if pos + 1 = n then 0 else pos + 1 := by
  unfold next
  by_cases hn : pos + 1 = n
  · rw [if_pos hn, hn, Nat.mod_self]
  · rw [if_neg hn, Nat.mod_eq_of_lt (by omega)]

/-- Positions counted from `pos` wrap around once. -/
theorem mod_eq (h : pos < n) (hi : i < n) :
    (pos + i) % n = if pos + i < n then pos + i else pos + i - n := by
  by_cases hlt : pos + i < n
  · rw [if_pos hlt, Nat.mod_eq_of_lt hlt]
  · rw [if_neg hlt, Nat.mod_eq_sub_mod (by omega), Nat.mod_eq_of_lt (by omega)]

end Positions

namespace Buffer

variable {r : Buffer α}

theorem Valid.put (h : r.Valid n) (a : α) : (r.put n a).Valid n := ⟨next_lt h.head, h.tail⟩

theorem Valid.drop (h : r.Valid n) : (r.drop n).Valid n := ⟨h.head, next_lt h.tail⟩

theorem Valid.count_lt (h : r.Valid n) : r.count n < n := by
  have h₁ := h.head
  unfold count
  split_ifs <;> omega

@[simp] theorem length_contents : (r.contents n).length = r.count n := by
  simp [contents]

section

variable (h : r.Valid n)
include h

theorem count_put (a : α) (hfull : r.full n = false) :
    (r.put n a).count n = r.count n + 1 := by
  have h₁ := h.head
  have h₂ := h.tail
  have hne : next n r.head ≠ r.tail := by simpa [full] using hfull
  rw [next_eq h₁] at hne
  simp only [count, Buffer.put, next_eq h₁]
  split_ifs at hne ⊢ <;> omega

theorem count_drop (hempty : r.empty = false) :
    (r.drop n).count n + 1 = r.count n := by
  have h₁ := h.head
  have h₂ := h.tail
  have hne : r.head ≠ r.tail := by simpa [empty] using hempty
  simp only [count, Buffer.drop, next_eq h₂]
  split_ifs <;> omega

/-- The slots that are in use come before `head`. -/
theorem head_eq : (r.tail + r.count n) % n = r.head := by
  have h₁ := h.head
  have h₂ := h.tail
  rw [mod_eq h₂ h.count_lt]
  unfold count
  split_ifs <;> omega

/-- An element that is written comes last. -/
theorem contents_put (a : α) (hfull : r.full n = false) :
    (r.put n a).contents n = r.contents n ++ [a] := by
  have h₂ := h.tail
  unfold contents
  rw [count_put h a hfull, range_succ, map_append]
  congr 1
  · refine map_congr_left fun i hi => ?_
    -- a slot in use is not the one that is written
    have hi' : i < r.count n := mem_range.1 hi
    have hlt := h.count_lt
    have hne : (r.tail + i) % n ≠ r.head := by
      have hhead := head_eq h
      rw [mod_eq h₂ hlt] at hhead
      rw [mod_eq h₂ (by omega)]
      split_ifs at hhead ⊢ <;> omega
    exact Function.update_of_ne hne ..
  · have hhead : ((r.put n a).tail + r.count n) % n = r.head := head_eq h
    rw [map_singleton, hhead]
    exact congrArg (fun x => [x]) (Function.update_self ..)

/-- The element that is read comes first. -/
theorem contents_drop (hempty : r.empty = false) :
    r.contents n = r.front :: (r.drop n).contents n := by
  have h₂ := h.tail
  unfold contents
  rw [← count_drop h hempty, range_succ_eq_map, map_cons, map_map]
  congr 1
  · exact congrArg r.buf (Nat.mod_eq_of_lt h₂)
  · refine map_congr_left fun i hi => ?_
    have hstep : (r.tail + (i + 1)) % n = ((r.tail + 1) % n + i) % n := by
      rw [Nat.mod_add_mod, Nat.add_assoc, Nat.add_comm 1 i]
    exact congrArg r.buf hstep

theorem empty_iff_count : r.empty = true ↔ r.count n = 0 := by
  have h₂ := h.tail
  rw [empty, beq_iff_eq, count]
  split_ifs <;> omega

theorem full_iff_count : r.full n = true ↔ r.count n + 1 = n := by
  have h₁ := h.head
  have h₂ := h.tail
  rw [full, beq_iff_eq, next_eq h₁, count]
  split_ifs <;> omega

/-- After a read there is room. -/
theorem full_drop (hempty : r.empty = false) : (r.drop n).full n = false := by
  have hcount := count_drop h hempty
  have hlt := h.count_lt
  rw [Bool.eq_false_iff, ne_eq, full_iff_count h.drop]
  omega

/-- After a write there is something to read. -/
theorem empty_put (a : α) (hfull : r.full n = false) :
    (r.put n a).empty = false := by
  rw [Bool.eq_false_iff, ne_eq, empty_iff_count (h.put a), count_put h a hfull]
  exact Nat.succ_ne_zero _

end

end Buffer

end Pintos.Lib.RingBuffer
