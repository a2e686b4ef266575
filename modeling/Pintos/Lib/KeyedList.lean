import Mathlib.Tactic

/-!
# Lists of records with a key

Records in a list are found by a key: the first record with that key. `update` changes the records
with a key and `erase` removes them; what both do is said through `lookup` alone. When the keys are
unique, `lookup` finds every member, and the number of records with a property changes by that of
the one record concerned.
-/

set_option autoImplicit false

namespace Pintos.Lib.KeyedList

open List

variable {α κ : Type} [DecidableEq κ] {key : α → κ} {l : List α} {a b : α} {k k' : κ} {f : α → α}

/-- The first record with a key. -/
def lookup (key : α → κ) (l : List α) (k : κ) : Option α := l.find? fun a => key a = k

/-- Change the records with a key. -/
def update (key : α → κ) (l : List α) (k : κ) (f : α → α) : List α :=
  l.map fun a => if key a = k then f a else a

/-- Remove the records with a key. -/
def erase (key : α → κ) (l : List α) (k : κ) : List α := l.filter fun a => key a ≠ k

/-- No two records have the same key. -/
def Unique (key : α → κ) (l : List α) : Prop := (l.map key).Nodup

theorem lookup_cons : lookup key (a :: l) k = if key a = k then some a else lookup key l k := by
  by_cases h : key a = k
  · simp [lookup, h]
  · simp [lookup, h]

theorem mem_of_lookup (h : lookup key l k = some a) : a ∈ l :=
  mem_of_find?_eq_some h

theorem key_of_lookup (h : lookup key l k = some a) : key a = k := by
  simpa using List.find?_some h

theorem lookup_eq_none_iff : lookup key l k = none ↔ ∀ a ∈ l, key a ≠ k := by
  simp [lookup]

/-! ## Changing and removing -/

/-- A change that keeps the keys is seen at its key only. -/
theorem lookup_update (hf : ∀ a, key (f a) = key a) :
    lookup key (update key l k f) k' =
      if k' = k then (lookup key l k').map f else lookup key l k' := by
  induction l with
  | nil =>
    show none = if k' = k then Option.map f none else none
    split <;> rfl
  | cons a l ih =>
    have hkey : key (if key a = k then f a else a) = key a := by
      split
      · exact hf a
      · rfl
    have hcons : update key (a :: l) k f = (if key a = k then f a else a) :: update key l k f := rfl
    rw [hcons, lookup_cons, lookup_cons, hkey, ih]
    by_cases ha : key a = k'
    · subst ha
      by_cases hk : key a = k
      · simp [hk]
      · simp [hk]
    · simp [ha]

theorem lookup_update_self (hf : ∀ a, key (f a) = key a) (h : lookup key l k = some a) :
    lookup key (update key l k f) k = some (f a) := by
  rw [lookup_update hf, if_pos rfl, h, Option.map_some]

theorem lookup_erase :
    lookup key (erase key l k) k' = if k' = k then none else lookup key l k' := by
  induction l with
  | nil =>
    show none = if k' = k then none else none
    split <;> rfl
  | cons a l ih =>
    by_cases hk : key a = k
    · have hcons : erase key (a :: l) k = erase key l k := by simp [erase, hk]
      rw [hcons, ih, lookup_cons]
      by_cases hk' : k' = k
      · simp [hk']
      · have ha : key a ≠ k' := fun e => hk' (e.symm.trans hk)
        simp [hk', ha]
    · have hcons : erase key (a :: l) k = a :: erase key l k := by simp [erase, hk]
      rw [hcons, lookup_cons, lookup_cons, ih]
      by_cases ha : key a = k'
      · have hk' : k' ≠ k := fun e => hk (ha.trans e)
        simp [ha, hk']
      · simp [ha]

theorem mem_erase : a ∈ erase key l k ↔ a ∈ l ∧ key a ≠ k := by
  simp [erase]

theorem erase_update (hf : ∀ a, key (f a) = key a) :
    erase key (update key l k f) k = erase key l k := by
  induction l with
  | nil => rfl
  | cons a l ih =>
    by_cases hk : key a = k
    · simpa [erase, update, hk, hf] using ih
    · simpa [erase, update, hk] using ih

/-- Removing a record that was put in front under a new key. -/
theorem erase_cons_new (h : ∀ b ∈ l, key b ≠ key a) : erase key (a :: l) (key a) = l := by
  simpa [erase] using h

/-! ## Unique keys -/

omit [DecidableEq κ] in
theorem unique_cons : Unique key (a :: l) ↔ (∀ b ∈ l, key b ≠ key a) ∧ Unique key l := by
  simp [Unique]

theorem Unique.lookup_of_mem (h : Unique key l) (ha : a ∈ l) : lookup key l (key a) = some a := by
  induction l with
  | nil => cases ha
  | cons b l ih =>
    obtain ⟨hb, hl⟩ := unique_cons.1 h
    rw [lookup_cons]
    cases ha with
    | head => exact if_pos rfl
    | tail _ hmem => rw [if_neg fun e => hb a hmem e.symm, ih hl hmem]

theorem Unique.eq_of_key (h : Unique key l) (ha : a ∈ l) (hb : b ∈ l) (e : key a = key b) :
    a = b := by
  have h1 := h.lookup_of_mem ha
  rw [e, h.lookup_of_mem hb] at h1
  exact (Option.some.inj h1).symm

/-- A change of one record that keeps a key of the records keeps that key unique. -/
theorem Unique.update {κ' : Type} {key' : α → κ'} (h : Unique key' l)
    (hf : ∀ a, key' (f a) = key' a) : Unique key' (update key l k f) := by
  have hmap : (KeyedList.update key l k f).map key' = l.map key' := by
    rw [KeyedList.update, map_map]
    apply map_congr_left
    intro a _
    show key' (if key a = k then f a else a) = key' a
    split
    · exact hf a
    · rfl
  rw [Unique, hmap]
  exact h

theorem Unique.erase {κ' : Type} {key' : α → κ'} (h : Unique key' l) :
    Unique key' (erase key l k) :=
  h.sublist (filter_sublist.map key')

/-- Membership after the change of the one record with a key. -/
theorem Unique.mem_update (h : Unique key l) (ha : a ∈ l) :
    b ∈ KeyedList.update key l (key a) f ↔ b = f a ∨ (b ∈ l ∧ key b ≠ key a) := by
  rw [KeyedList.update, mem_map]
  constructor
  · rintro ⟨c, hc, rfl⟩
    by_cases hk : key c = key a
    · obtain rfl := h.eq_of_key hc ha hk
      exact Or.inl (if_pos rfl)
    · rw [if_neg hk]
      exact Or.inr ⟨hc, hk⟩
  · rintro (rfl | ⟨hb, hk⟩)
    · exact ⟨a, ha, if_pos rfl⟩
    · exact ⟨b, hb, if_neg hk⟩

/-- What holds of all records still does when it holds of the changed one. -/
theorem Unique.forall_update {p : α → Prop} (h : Unique key l) (ha : a ∈ l) (hf : p (f a))
    (hl : ∀ b ∈ l, p b) : ∀ b ∈ KeyedList.update key l (key a) f, p b := by
  intro b hb
  rcases (h.mem_update ha).1 hb with rfl | ⟨hb, -⟩
  · exact hf
  · exact hl b hb

/-! ## Counting -/

theorem countP_update {p : α → Bool} (hp : ∀ a, p (f a) = p a) :
    (update key l k f).countP p = l.countP p := by
  rw [update, countP_map]
  congr 1
  funext a
  show p (if key a = k then f a else a) = p a
  split
  · exact hp a
  · rfl

/-- Changing the one record with a key. -/
theorem Unique.countP_update {p : α → Bool} (h : Unique key l) (ha : a ∈ l) :
    (KeyedList.update key l (key a) f).countP p + (if p a then 1 else 0) =
      l.countP p + (if p (f a) then 1 else 0) := by
  induction l with
  | nil => cases ha
  | cons b l ih =>
    obtain ⟨hb, hl⟩ := unique_cons.1 h
    have hcons : KeyedList.update key (b :: l) (key a) f =
        (if key b = key a then f b else b) :: KeyedList.update key l (key a) f := rfl
    rw [hcons, countP_cons, countP_cons]
    cases ha with
    | head =>
      have hrest : KeyedList.update key l (key a) f = l := by
        conv_rhs => rw [← map_id l]
        apply map_congr_left
        intro c hc
        exact if_neg (hb c hc)
      rw [if_pos rfl, hrest]
      omega
    | tail _ hmem =>
      have hne : key b ≠ key a := fun e => hb a hmem e.symm
      have hcount := ih hl hmem
      rw [if_neg hne]
      omega

/-- Removing the one record with a key. -/
theorem Unique.countP_erase {p : α → Bool} (h : Unique key l) (ha : a ∈ l) :
    (KeyedList.erase key l (key a)).countP p + (if p a then 1 else 0) = l.countP p := by
  induction l with
  | nil => cases ha
  | cons b l ih =>
    obtain ⟨hb, hl⟩ := unique_cons.1 h
    cases ha with
    | head =>
      rw [erase_cons_new hb, countP_cons]
    | tail _ hmem =>
      have hne : key b ≠ key a := fun e => hb a hmem e.symm
      have hrest : KeyedList.erase key (b :: l) (key a) = b :: KeyedList.erase key l (key a) := by
        simp [KeyedList.erase, hne]
      rw [hrest, countP_cons, countP_cons, ← ih hl hmem]
      omega

end Pintos.Lib.KeyedList
