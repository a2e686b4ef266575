import Pintos.LibKernel.ListFamily

/-!
# Lists refine sequences

What each function of `list.c` does to a well-formed family of lists, in terms of the sequences of
elements. `list_insert` and `list_remove` are the links and unlinks of one element, `list_splice`
an unlink of a range followed by a link; `list_reverse` breaks every link of its list and its loop
is followed element by element. The reading functions are followed along the suffix that is left.
-/

set_option autoImplicit false

namespace Pintos.LibKernel.ListLaws

open Lib.StateExcept Lib.LinkedNodes
open LibKernel.List ListFamily

variable {ν : Type} [DecidableEq ν]

/-! ## The assertions -/

section Assertions

variable (h : Heap ν) (x : ν)

omit [DecidableEq ν] in
theorem interior_or_tail_iff :
    (isInterior h (some x) = true ∨ isTail h (some x) = true) ↔ (h x).prev.isSome = true := by
  cases hp : (h x).prev <;> cases hn : (h x).next <;> simp [isInterior, isTail, hp, hn]

omit [DecidableEq ν] in
theorem head_or_interior_iff :
    (isHead h (some x) = true ∨ isInterior h (some x) = true) ↔ (h x).next.isSome = true := by
  cases hp : (h x).prev <;> cases hn : (h x).next <;> simp [isHead, isInterior, hp, hn]

omit [DecidableEq ν] in
theorem isInterior_iff :
    isInterior h (some x) = true ↔ (h x).prev.isSome = true ∧ (h x).next.isSome = true := by
  simp [isInterior]

end Assertions

section Laws

variable {h : Heap ν} {F : Family ν} {l : KList ν} {us vs xs : List ν} {e : ν} {f last x : ν}
  {fuel : Nat}

omit [DecidableEq ν] in
/-- The links of an element of a list. -/
theorem links_elem (hl : IsList h l (us ++ e :: vs)) :
    (h e).prev = some (lastOf l us) ∧ (h e).next = some (firstOf l vs) := by
  have hprev := hl.joined.2
  rw [firstOf_cons] at hprev
  have hnext := hl.shift.joined.1
  rw [lastOf_concat] at hnext
  exact ⟨hprev, hnext⟩

/-! ## The stores of the functions -/

/-- The stores by which `list_insert` and `list_splice` put a range before `b`. -/
theorem wp_linkStores {a b : ν} (hb : (h b).prev = some a) (hne : b ≠ f)
    (Q : Unit → Heap ν → Prop) :
    wp (do
      writePrev (some f) (← readPrev (some b))
      writeNext (some last) (some b)
      writeNext (← readPrev (some b)) (some f)
      writePrev (some b) (some last)) h Q ↔ Q () (link h a f last b) := by
  simp only [wp_bind, wp_readPrev, wp_writePrev, wp_writeNext, setNext_prev, setPrev_prev,
    if_neg hne, hb]
  rfl

/-- The stores by which `list_remove` and `list_splice` take a range out, before the rest `k`. -/
theorem wp_unlinkStores {α : Type} {a b : ν} (hf : (h f).prev = some a)
    (hlast : (h last).next = some b) (hne : last ≠ a) (k : ListM ν α) (Q : α → Heap ν → Prop) :
    wp (do
      writeNext (← readPrev (some f)) (← readNext (some last))
      writePrev (← readNext (some last)) (← readPrev (some f))
      k) h Q ↔ wp k (unlink h a b) Q := by
  simp only [wp_bind, wp_readPrev, wp_readNext, wp_writePrev, wp_writeNext, setNext_prev,
    setNext_next, if_neg hne, hf, hlast]
  rfl

omit [DecidableEq ν] in
theorem wp_listNext {y : ν} (hx : (h x).next = some y) (Q : Option ν → Heap ν → Prop) :
    wp (listNext (some x)) h Q ↔ Q (some y) h := by
  rw [listNext, wp_bind, wp_get, wp_bind, wp_check, head_or_interior_iff, wp_readNext, hx]
  exact and_iff_right rfl

omit [DecidableEq ν] in
theorem wp_listPrev {y : ν} (hx : (h x).prev = some y) (Q : Option ν → Heap ν → Prop) :
    wp (listPrev (some x)) h Q ↔ Q (some y) h := by
  rw [listPrev, wp_bind, wp_get, wp_bind, wp_check, interior_or_tail_iff, wp_readPrev, hx]
  exact and_iff_right rfl

/-! ## Insertion and removal -/

/-- `list_insert` before a position. -/
theorem wp_listInsert_iff (hl : IsList h l (us ++ vs)) (hne : firstOf l vs ≠ e)
    (Q : Unit → Heap ν → Prop) :
    wp (listInsert (some (firstOf l vs)) (some e)) h Q ↔
      Q () (link h (lastOf l us) e e (firstOf l vs)) := by
  have hb := hl.joined.2
  rw [listInsert, wp_bind, wp_get, wp_bind, wp_check, interior_or_tail_iff, wp_bind, wp_check,
    wp_linkStores hb hne, hb]
  exact ⟨fun hq => hq.2.2, fun hq => ⟨rfl, Option.some_ne_none e, hq⟩⟩

theorem wp_listPushFront_iff (hl : IsList h l xs) (hne : firstOf l xs ≠ e)
    (Q : Unit → Heap ν → Prop) :
    wp (listPushFront l (some e)) h Q ↔ Q () (link h l.head e e (firstOf l xs)) := by
  have hl' : IsList h l ([] ++ xs) := hl
  rw [listPushFront, wp_bind, listBegin, wp_readNext, hl.joined_head.1]
  exact wp_listInsert_iff hl' hne Q

theorem wp_listPushBack_iff (hl : IsList h l xs) (hne : l.tail ≠ e) (Q : Unit → Heap ν → Prop) :
    wp (listPushBack l (some e)) h Q ↔ Q () (link h (lastOf l xs) e e l.tail) := by
  have hl' : IsList h l (xs ++ []) := by
    rw [List.append_nil]
    exact hl
  exact wp_listInsert_iff hl' hne Q

/-- `list_remove` of an element. -/
theorem wp_listRemove_iff (hl : IsList h l (us ++ e :: vs)) (Q : Option ν → Heap ν → Prop) :
    wp (listRemove (some e)) h Q ↔
      Q (some (firstOf l vs)) (unlink h (lastOf l us) (firstOf l vs)) := by
  obtain ⟨hprev, hnext⟩ := links_elem hl
  have hne := (range_ne hl.shift.nodup e (List.mem_singleton.2 rfl)).1
  rw [listRemove, wp_bind, wp_get, wp_bind, wp_check, isInterior_iff,
    wp_unlinkStores hprev hnext hne, wp_readNext, unlink_next, if_neg hne, hprev, hnext]
  exact and_iff_right ⟨rfl, rfl⟩

theorem wp_listInsert (hwf : WellFormed h F) (hl : F l = some (us ++ vs)) (he : Free F e) :
    wp (listInsert (some (firstOf l vs)) (some e)) h fun _ h' =>
      WellFormed h' (F.put l (us ++ e :: vs)) := by
  have hne : firstOf l vs ≠ e := by
    rintro rfl
    exact he l _ hl (firstOf_mem_nodes l us vs)
  have hlink := hwf.link hl (linked_singleton e) (List.nodup_singleton e) (by simpa using he) rfl
    rfl
  rw [List.append_assoc] at hlink
  exact (wp_listInsert_iff (hwf.isList l _ hl) hne _).2 hlink

theorem wp_listPushFront (hwf : WellFormed h F) (hl : F l = some xs) (he : Free F e) :
    wp (listPushFront l (some e)) h fun _ h' => WellFormed h' (F.put l (e :: xs)) := by
  have hl' : F l = some ([] ++ xs) := hl
  rw [listPushFront, wp_bind, listBegin, wp_readNext, (hwf.isList l xs hl).joined_head.1]
  exact wp_listInsert hwf hl' he

theorem wp_listPushBack (hwf : WellFormed h F) (hl : F l = some xs) (he : Free F e) :
    wp (listPushBack l (some e)) h fun _ h' => WellFormed h' (F.put l (xs ++ [e])) := by
  rw [← List.append_nil xs] at hl
  rw [listPushBack, listEnd, ← firstOf_nil]
  exact wp_listInsert hwf hl he

theorem wp_listRemove (hwf : WellFormed h F) (hl : F l = some (us ++ e :: vs)) :
    wp (listRemove (some e)) h fun r h' => r = some (firstOf l vs) ∧
      WellFormed h' (F.put l (us ++ vs)) ∧ Free (F.put l (us ++ vs)) e := by
  have hl' : F l = some (us ++ [e] ++ vs) := by
    rw [List.append_assoc]
    exact hl
  obtain ⟨hwf', -, hfree⟩ := hwf.unlink hl'
  exact (wp_listRemove_iff (hwf.isList l _ hl) _).2
    ⟨rfl, hwf', hfree e (List.mem_singleton.2 rfl)⟩

theorem wp_listEmpty (hwf : WellFormed h F) (hl : F l = some xs) (Q : Bool → Heap ν → Prop) :
    wp (listEmpty l) h Q ↔ Q xs.isEmpty h := by
  have hlist := hwf.isList l xs hl
  have hnext := hlist.joined_head.1
  have hval : decide ((some (firstOf l xs) : Option ν) = some l.tail) = xs.isEmpty := by
    cases xs with
    | nil => simp
    | cons x xs =>
      have hxt := (elem_ne_headers hlist.nodup (List.mem_cons_self (a := x) (l := xs))).2
      simp [hxt]
  simp only [listEmpty, listBegin, wp_bind, wp_readNext, wp_pure, hnext, listEnd, hval]

theorem wp_listPopFront_iff (hwf : WellFormed h F) (hl : F l = some (e :: xs))
    (Q : Option ν → Heap ν → Prop) :
    wp (listPopFront l) h Q ↔ Q (some e) (unlink h l.head (firstOf l xs)) := by
  have hlist := hwf.isList l _ hl
  have hl' : IsList h l ([] ++ e :: xs) := hlist
  have hnext := hlist.joined_head.1
  rw [firstOf_cons] at hnext
  simp only [listPopFront, listFront, wp_bind, wp_listEmpty hwf hl, List.isEmpty_cons, wp_check,
    wp_readNext, hnext, wp_listRemove_iff hl', wp_pure, true_and]
  rfl

theorem wp_listPopFront (hwf : WellFormed h F) (hl : F l = some (e :: xs)) :
    wp (listPopFront l) h fun r h' => r = some e ∧ WellFormed h' (F.put l xs) ∧
      Free (F.put l xs) e := by
  have hl' : F l = some ([] ++ [e] ++ xs) := hl
  obtain ⟨hwf', -, hfree⟩ := hwf.unlink hl'
  exact (wp_listPopFront_iff hwf hl _).2 ⟨rfl, hwf', hfree e (List.mem_singleton.2 rfl)⟩

theorem wp_listPopBack (hwf : WellFormed h F) (hl : F l = some (xs ++ [e])) :
    wp (listPopBack l) h fun r h' => r = some e ∧ WellFormed h' (F.put l xs) ∧
      Free (F.put l xs) e := by
  have hprev := (hwf.isList l _ hl).joined_tail.2
  rw [lastOf_concat] at hprev
  have hempty : (xs ++ [e]).isEmpty = false := by simp
  simp only [listPopBack, listBack, wp_bind, wp_listEmpty hwf hl, hempty, wp_check, wp_readPrev,
    hprev]
  refine ⟨trivial, wp_mono (wp_listRemove hwf hl) ?_⟩
  rintro - h' ⟨-, hwf', hfree⟩
  rw [List.append_nil] at hwf' hfree
  rw [wp_pure]
  exact ⟨rfl, hwf', hfree⟩

/-- `list_init` changes the headers only. -/
theorem wp_listInit_frame (h : Heap ν) (l : KList ν) :
    wp (listInit l) h fun _ h' => ∀ x, x ≠ l.head → x ≠ l.tail → h' x = h x := by
  simp only [listInit, wp_bind, wp_writePrev, wp_writeNext]
  intro x hxh hxt
  ext1
  · rw [setNext_prev, setPrev_prev, if_neg hxt, setNext_prev, setPrev_prev, if_neg hxh]
  · rw [setNext_next, if_neg hxt, setPrev_next, setNext_next, if_neg hxh, setPrev_next]

/-- An initialised list is empty, whatever its headers were before; they may not be nodes of another
list. -/
theorem wp_listInit (hwf : WellFormed h F) (hne : l.head ≠ l.tail)
    (hout : ∀ l' ys, F l' = some ys → l' ≠ l → l.head ∉ nodes l' ys ∧ l.tail ∉ nodes l' ys) :
    wp (listInit l) h fun _ h' => WellFormed h' (F.put l []) := by
  have hframe := wp_listInit_frame h l
  simp only [listInit, wp_bind, wp_writePrev, wp_writeNext] at hframe ⊢
  refine hwf.replace ⟨?_, ?_, ?_, ?_⟩ ?_
  · refine List.isChain_pair.2 ⟨?_, ?_⟩
    · rw [setNext_next, if_neg hne, setPrev_next, setNext_next, if_pos rfl]
    · rw [setNext_prev, setPrev_prev, if_pos rfl]
  · exact List.nodup_cons.2 ⟨by simpa using hne, List.nodup_singleton _⟩
  · rw [setNext_prev, setPrev_prev, if_neg hne, setNext_prev, setPrev_prev, if_pos rfl]
  · rw [setNext_next, if_pos rfl]
  · intro l' ys hl' hl
    obtain ⟨hhead, htail⟩ := hout l' ys hl' hl
    constructor
    · intro x hx hx'
      rcases List.mem_pair.1 hx' with rfl | rfl
      · exact hhead hx
      · exact htail hx
    · exact fun x hx => hframe x (fun e => hhead (e ▸ hx)) fun e => htail (e ▸ hx)

/-! ## Moving a range -/

omit [DecidableEq ν] in
/-- The last element before a position that follows a range. -/
theorem lastOf_append {rng : List ν} (hlast : rng.getLast? = some last) :
    lastOf l (us ++ rng) = last := by
  obtain ⟨mid, rfl⟩ := List.getLast?_eq_some_iff.1 hlast
  rw [← List.append_assoc, lastOf_concat]

/-- A range goes from the list `l` to a position of the list `l'`, which may be `l` itself. The
position is one of the lists that are left without the range. -/
theorem wp_listSplice {l' : KList ν} {rng ys : List ν} (hwf : WellFormed h F)
    (hl : F l = some (xs ++ rng ++ ys)) (hl' : F.put l (xs ++ ys) l' = some (us ++ vs)) :
    wp (listSplice (some (firstOf l' vs)) (some (firstOf l (rng ++ ys))) (some (firstOf l ys))) h
      fun _ h' => WellFormed h' ((F.put l (xs ++ ys)).put l' (us ++ rng ++ vs)) := by
  obtain ⟨hwf₁, hrng, hfree⟩ := hwf.unlink hl
  have hlist := hwf.isList l _ hl
  have hbefore := (hwf₁.isList l' _ hl').joined.2
  -- in the heap before the range is taken out, too, something precedes the position
  have hassert : (h (firstOf l' vs)).prev.isSome = true := by
    by_cases he : firstOf l' vs = firstOf l ys
    · rw [he, hlist.joined.2]
      rfl
    · rw [unlink_prev, if_neg he] at hbefore
      rw [hbefore]
      rfl
  rw [listSplice, wp_bind, wp_get, wp_bind, wp_check, interior_or_tail_iff]
  refine ⟨hassert, ?_⟩
  cases hr : rng with
  | nil =>
    subst hr
    rw [List.append_nil] at hl ⊢
    rw [put_eq_self hl] at hl' ⊢
    rw [List.nil_append, if_pos rfl, wp_pure, put_eq_self hl']
    exact hwf
  | cons f mid =>
    have hhead : rng.head? = some f := by rw [hr]; rfl
    obtain ⟨last, hlast⟩ : ∃ last, rng.getLast? = some last := by
      rw [hr, List.getLast?_cons]
      exact ⟨_, rfl⟩
    have hfm : f ∈ rng := List.mem_of_head? hhead
    have hlm : last ∈ rng := List.mem_of_getLast? hlast
    have hne := range_ne hlist.nodup
    rw [← hr]
    have hfirst : firstOf l (rng ++ ys) = f := by rw [hr]; rfl
    rw [hfirst]
    -- the links of the two ends of the range
    have hfprev : (h f).prev = some (lastOf l xs) := by
      have hl₁ := hlist
      rw [List.append_assoc, hr, List.cons_append] at hl₁
      exact (links_elem hl₁).1
    have hfnext : (h f).next.isSome = true := by
      have hl₁ := hlist
      rw [List.append_assoc, hr, List.cons_append] at hl₁
      rw [(links_elem hl₁).2]
      rfl
    obtain ⟨mid', hmid⟩ := List.getLast?_eq_some_iff.1 hlast
    have hlinks : (h last).prev.isSome = true ∧ (h last).next = some (firstOf l ys) := by
      have hl₁ := hlist
      rw [hmid, ← List.append_assoc, List.append_assoc _ [last] ys] at hl₁
      obtain ⟨hp, hn⟩ := links_elem hl₁
      exact ⟨by rw [hp]; rfl, hn⟩
    have hend : (h (firstOf l ys)).prev = some last := by
      rw [hlist.joined.2, lastOf_append hlast]
    rw [if_neg (fun e => (hne f hfm).2 (Option.some.inj e))]
    have hpos : firstOf l' vs ≠ f := by
      rintro rfl
      exact hfree _ hfm l' _ hl' (firstOf_mem_nodes l' us vs)
    have hrnd : rng.Nodup :=
      (List.nodup_append.1 ((nodes_perm l xs rng ys).nodup_iff.1 hlist.nodup)).1
    rw [wp_bind, wp_listPrev hend, wp_bind, wp_check, isInterior_iff, wp_bind, wp_check,
      isInterior_iff, wp_unlinkStores hfprev hlinks.2 (hne last hlm).1,
      wp_linkStores hbefore hpos, hfprev, hlinks.2]
    exact ⟨⟨rfl, hfnext⟩, ⟨hlinks.1, rfl⟩, hwf₁.link hl' hrng hrnd hfree hhead hlast⟩

/-! ## Reading a list -/

theorem wp_forwardFrom (hl : IsList h l (us ++ vs)) (hfuel : vs.length < fuel)
    (Q : List ν → Heap ν → Prop) :
    wp (forwardFrom l fuel (some (firstOf l vs))) h Q ↔ Q vs h := by
  induction vs generalizing us fuel Q with
  | nil =>
    cases fuel with
    | zero => omega
    | succ fuel =>
      rw [forwardFrom, firstOf_nil, listEnd, if_pos rfl, wp_pure]
  | cons x vs ih =>
    cases fuel with
    | zero => omega
    | succ fuel =>
      rw [forwardFrom, firstOf_cons, if_neg hl.ne_end, wp_bind,
        wp_deref, wp_bind, wp_listNext (links_elem hl).2, wp_bind,
        ih hl.shift (Nat.lt_of_succ_lt_succ hfuel), wp_pure]

theorem wp_forward (hl : IsList h l xs) (hfuel : xs.length < fuel) (Q : List ν → Heap ν → Prop) :
    wp (forward fuel l) h Q ↔ Q xs h := by
  have hl' : IsList h l ([] ++ xs) := hl
  rw [forward, wp_bind, listBegin, wp_readNext, hl.joined_head.1]
  exact wp_forwardFrom hl' hfuel Q

theorem wp_backwardFrom (hl : IsList h l (us ++ vs)) (hfuel : us.length < fuel)
    (Q : List ν → Heap ν → Prop) :
    wp (backwardFrom l fuel (some (lastOf l us))) h Q ↔ Q us.reverse h := by
  induction us using List.reverseRecOn generalizing vs fuel Q with
  | nil =>
    cases fuel with
    | zero => omega
    | succ fuel =>
      rw [backwardFrom, lastOf_nil, listRend, if_pos rfl, wp_pure]
      rfl
  | append_singleton us x ih =>
    cases fuel with
    | zero => omega
    | succ fuel =>
      have hhead := (elem_ne_headers hl.nodup (x := x) (by simp)).1
      have hrest : IsList h l (us ++ x :: vs) := by
        rw [List.append_assoc] at hl
        exact hl
      have hlen : us.length < fuel := by
        rw [List.length_append, List.length_singleton] at hfuel
        exact Nat.lt_of_succ_lt_succ hfuel
      rw [backwardFrom, lastOf_concat, listRend, if_neg (fun e => hhead (Option.some.inj e)),
        wp_bind, wp_deref, wp_bind, wp_listPrev (links_elem hrest).1, wp_bind, ih hrest hlen,
        wp_pure, List.reverse_concat]

theorem wp_backward (hl : IsList h l xs) (hfuel : xs.length < fuel) (Q : List ν → Heap ν → Prop) :
    wp (backward fuel l) h Q ↔ Q xs.reverse h := by
  have hl' : IsList h l (xs ++ []) := by
    rw [List.append_nil]
    exact hl
  rw [backward, wp_bind, listRbegin, wp_readPrev, hl.joined_tail.2]
  exact wp_backwardFrom hl' hfuel Q

theorem wp_listSizeFrom (hl : IsList h l (us ++ vs)) {cnt : Nat} (hfuel : vs.length < fuel)
    (hcnt : cnt < 2 ^ 64) (Q : Nat → Heap ν → Prop) :
    wp (listSizeFrom l fuel (some (firstOf l vs)) cnt) h Q ↔ Q ((cnt + vs.length) % 2 ^ 64) h := by
  induction vs generalizing us fuel cnt with
  | nil =>
    cases fuel with
    | zero => omega
    | succ fuel =>
      rw [listSizeFrom, firstOf_nil, listEnd, if_pos rfl, wp_pure, List.length_nil, add_zero,
        Nat.mod_eq_of_lt hcnt]
  | cons x vs ih =>
    cases fuel with
    | zero => omega
    | succ fuel =>
      have hsum : ((cnt + 1) % 2 ^ 64 + vs.length) % 2 ^ 64 = (cnt + (vs.length + 1)) % 2 ^ 64 := by
        rw [Nat.mod_add_mod]
        omega
      rw [listSizeFrom, firstOf_cons, if_neg hl.ne_end, wp_bind,
        wp_listNext (links_elem hl).2,
        ih hl.shift (Nat.lt_of_succ_lt_succ hfuel) (Nat.mod_lt _ (by norm_num)), hsum,
        List.length_cons]

theorem wp_listSize (hl : IsList h l xs) (hfuel : xs.length < fuel) (Q : Nat → Heap ν → Prop) :
    wp (listSize fuel l) h Q ↔ Q (xs.length % 2 ^ 64) h := by
  have hl' : IsList h l ([] ++ xs) := hl
  rw [listSize, wp_bind, listBegin, wp_readNext, hl.joined_head.1,
    wp_listSizeFrom hl' hfuel (by norm_num), zero_add]

/-! ## Reversal -/

/-- The heap in which the elements of `us` have their links swapped. -/
def swapped (h : Heap ν) (us : List ν) : Heap ν :=
  fun x => if x ∈ us then ⟨(h x).next, (h x).prev⟩ else h x

theorem swapped_of_mem (hx : x ∈ us) : swapped h us x = ⟨(h x).next, (h x).prev⟩ :=
  if_pos hx

theorem swapped_of_not_mem (hx : x ∉ us) : swapped h us x = h x := if_neg hx

theorem wp_swapLinks (hx : x ∉ us) (Q : Unit → Heap ν → Prop) :
    wp (swapLinks (some x)) (swapped h us) Q ↔ Q () (swapped h (us ++ [x])) := by
  have heap : setNext (setPrev (swapped h us) x (h x).next) x (h x).prev
      = swapped h (us ++ [x]) := by
    funext y
    by_cases hy : y = x
    · subst hy
      rw [swapped_of_mem (by simp)]
      ext1
      · rw [setNext_prev, setPrev_prev, if_pos rfl]
      · rw [setNext_next, if_pos rfl]
    · have hsame : swapped h (us ++ [x]) y = swapped h us y := by
        by_cases hu : y ∈ us
        · rw [swapped_of_mem hu, swapped_of_mem (by simp [hu])]
        · rw [swapped_of_not_mem hu, swapped_of_not_mem (by simp [hu, hy])]
      rw [hsame]
      ext1
      · rw [setNext_prev, setPrev_prev, if_neg hy]
      · rw [setNext_next, if_neg hy, setPrev_next]
  simp only [swapLinks, wp_bind, wp_readPrev, wp_readNext, wp_writePrev, wp_writeNext,
    swapped_of_not_mem hx, heap]

/-- The loop swaps the links of the elements that are left. -/
theorem wp_listReverseFrom (hl : IsList h l (us ++ vs)) (hfuel : vs.length < fuel)
    (Q : Unit → Heap ν → Prop) :
    wp (listReverseFrom l fuel (some (firstOf l vs))) (swapped h us) Q ↔
      Q () (swapped h (us ++ vs)) := by
  induction vs generalizing us fuel with
  | nil =>
    cases fuel with
    | zero => omega
    | succ fuel =>
      rw [listReverseFrom, firstOf_nil, listEnd, if_pos rfl, wp_pure, List.append_nil]
  | cons x vs ih =>
    cases fuel with
    | zero => omega
    | succ fuel =>
      have hxus : x ∉ us := by
        have hnd := hl.nodup
        rw [nodes, List.cons_append, List.nodup_cons, List.append_assoc] at hnd
        intro hx
        exact List.disjoint_of_nodup_append hnd.2 hx (by simp)
      -- what is now the previous link was the next one
      have hnext : (swapped h (us ++ [x]) x).prev = some (firstOf l vs) := by
        rw [swapped_of_mem (by simp)]
        exact (links_elem hl).2
      rw [listReverseFrom, firstOf_cons, if_neg hl.ne_end,
        wp_bind, wp_swapLinks hxus, wp_bind, wp_readPrev, hnext,
        ih hl.shift (Nat.lt_of_succ_lt_succ hfuel), List.append_assoc]
      rfl

omit [DecidableEq ν] in
/-- The neighbours of a list's headers. -/
theorem links_headers (hl : IsList h l xs) (hf : xs.head? = some f)
    (hlast : xs.getLast? = some last) :
    (h l.head).next = some f ∧ (h l.tail).prev = some last ∧ (h f).prev = some l.head ∧
      (h last).next = some l.tail := by
  have hfirst : firstOf l xs = f := by
    obtain ⟨ys, rfl⟩ := List.head?_eq_some_iff.1 hf
    rfl
  have hfront := hl.joined_head
  have hback := hl.joined_tail
  rw [hfirst] at hfront
  rw [← List.nil_append xs, lastOf_append hlast] at hback
  exact ⟨hfront.1, hback.2, hfront.2, hback.1⟩

/-- With the links of its elements swapped and its ends joined to the headers, the list is
reversed. -/
theorem isList_reverse (hl : IsList h l xs) (hf : xs.head? = some f)
    (hlast : xs.getLast? = some last) :
    IsList (link (swapped h xs) l.head last f l.tail) l xs.reverse := by
  have hnodes : nodes l xs.reverse = [] ++ [l.head] ++ xs.reverse ++ l.tail :: [] := by
    simp [nodes]
  have hnd : (nodes l xs.reverse).Nodup := by
    have hperm : (nodes l xs.reverse).Perm (nodes l xs) :=
      ((List.reverse_perm xs).append_right [l.tail]).cons l.head
    exact hperm.nodup_iff.2 hl.nodup
  have hinner : Linked (swapped h xs) xs.reverse := by
    have hxs : Linked h xs := by
      have hlinked := hl.linked
      rw [nodes, ← List.singleton_append] at hlinked
      exact (linked_append.1 (linked_append.1 hlinked).1).2.1
    refine List.isChain_reverse.2 (List.IsChain.imp_of_mem_imp ?_ hxs)
    rintro a b ha hb ⟨hn, hp⟩
    exact ⟨by rw [swapped_of_mem hb]; exact hp, by rw [swapped_of_mem ha]; exact hn⟩
  have hfm := elem_ne_headers hl.nodup (List.mem_of_head? hf)
  have hlm := elem_ne_headers hl.nodup (List.mem_of_getLast? hlast)
  have hht : l.head ≠ l.tail := by
    have hnd' := hl.nodup
    rw [← List.append_nil xs] at hnd'
    exact head_ne_firstOf hnd'
  refine ⟨?_, hnd, ?_, ?_⟩
  · rw [hnodes]
    refine link_linked (linked_singleton _) (linked_singleton _) hinner ?_ ?_ ?_
    · rw [List.head?_reverse, hlast]
    · rw [List.getLast?_reverse, hf]
    · exact hnd
  · have hnot : l.head ∉ xs := fun hx => (elem_ne_headers hl.nodup hx).1 rfl
    rw [link_prev, if_neg hht, if_neg hlm.1.symm, swapped_of_not_mem hnot, hl.headPrev]
  · have hnot : l.tail ∉ xs := fun hx => (elem_ne_headers hl.nodup hx).2 rfl
    rw [link_next, if_neg hht.symm, if_neg hfm.2.symm, swapped_of_not_mem hnot, hl.tailNext]

/-- The stores after the loop of `list_reverse`. -/
theorem wp_reverseStores (hl : IsList h l xs) (hf : xs.head? = some f)
    (hlast : xs.getLast? = some last) (Q : Unit → Heap ν → Prop) :
    wp (do
      let first ← readNext (some l.head)
      let last ← readPrev (some l.tail)
      writeNext (some l.head) last
      writePrev (some l.tail) first
      let front ← readNext (some l.head)
      let back ← readPrev (some l.tail)
      let prev ← readPrev front
      let next ← readNext back
      writePrev front next
      writeNext back prev) (swapped h xs) Q ↔
        Q () (link (swapped h xs) l.head last f l.tail) := by
  obtain ⟨hhn, htp, hfp, hln⟩ := links_headers hl hf hlast
  have hfm := List.mem_of_head? hf
  have hlm := List.mem_of_getLast? hlast
  obtain ⟨hfh, -⟩ := elem_ne_headers hl.nodup hfm
  obtain ⟨-, hlt⟩ := elem_ne_headers hl.nodup hlm
  have hhead : l.head ∉ xs := fun hx => (elem_ne_headers hl.nodup hx).1 rfl
  have htail : l.tail ∉ xs := fun hx => (elem_ne_headers hl.nodup hx).2 rfl
  -- the same stores as those of `link`, in another order
  have heap : setNext (setPrev (setPrev (setNext (swapped h xs) l.head (some last)) l.tail (some f))
      last (some l.head)) f (some l.tail) = link (swapped h xs) l.head last f l.tail := by
    funext x
    ext1
    · rw [link_prev, setNext_prev, setPrev_prev, setPrev_prev, setNext_prev]
      by_cases hx : x = last
      · subst hx
        rw [if_pos rfl, if_neg hlt, if_pos rfl]
      · rw [if_neg hx, if_neg hx]
    · rw [link_next, setNext_next, setPrev_next, setPrev_next, setNext_next]
      by_cases hx : x = f
      · subst hx
        rw [if_pos rfl, if_neg hfh, if_pos rfl]
      · rw [if_neg hx, if_neg hx]
  simp only [wp_bind, wp_readPrev, wp_readNext, wp_writePrev, wp_writeNext, setPrev_prev,
    setPrev_next, setNext_prev, setNext_next, if_true, if_neg hfh, if_neg hlt,
    swapped_of_not_mem hhead, swapped_of_not_mem htail, swapped_of_mem hfm, swapped_of_mem hlm,
    hhn, htp, hfp, hln, heap]

theorem wp_listReverse (hwf : WellFormed h F) (hl : F l = some xs) (hfuel : xs.length < fuel) :
    wp (listReverse fuel l) h fun _ h' => WellFormed h' (F.put l xs.reverse) := by
  have hlist := hwf.isList l xs hl
  rw [listReverse, wp_bind, wp_listEmpty hwf hl]
  cases hxs : xs with
  | nil =>
    subst hxs
    rw [List.isEmpty_nil, if_pos rfl, wp_pure, List.reverse_nil, put_eq_self hl]
    exact hwf
  | cons f ys =>
    have hf : xs.head? = some f := by rw [hxs]; rfl
    obtain ⟨last, hlast⟩ : ∃ last, xs.getLast? = some last := by
      rw [hxs, List.getLast?_cons]
      exact ⟨_, rfl⟩
    have hlist' : IsList h l ([] ++ xs) := hlist
    have hstart : swapped h [] = h := funext fun x => swapped_of_not_mem List.not_mem_nil
    have hempty : xs.isEmpty = false := by rw [hxs]; rfl
    rw [← hxs]
    have hloop := wp_listReverseFrom hlist' hfuel
    rw [hstart, List.nil_append] at hloop
    rw [hempty, if_neg Bool.false_ne_true, wp_bind, listBegin, wp_readNext,
      hlist.joined_head.1, wp_bind, hloop, wp_reverseStores hlist hf hlast]
    refine hwf.change hl (isList_reverse hlist hf hlast) ?_ ?_
    · intro x hx
      refine Or.inl ?_
      simp only [nodes, List.mem_append, List.mem_cons, List.mem_reverse] at hx ⊢
      exact hx
    · intro x hx _
      have hnot : x ∉ xs := fun hxs' => hx (mem_nodes_of_mem hxs')
      rw [link_frame, swapped_of_not_mem hnot]
      · rintro rfl
        exact hx (head_mem_nodes l xs)
      · rintro rfl
        exact hnot (List.mem_of_getLast? hlast)
      · rintro rfl
        exact hnot (List.mem_of_head? hf)
      · rintro rfl
        exact hx (tail_mem_nodes l xs)

end Laws

/-! ## All functions together -/

/-- Nodes as the machine has them: the 64-bit addresses of list elements. -/
abbrev Address : Type := UInt64

/-- There are fewer elements than addresses, so `size_t` can count them. -/
theorem length_lt {h : Heap Address} {l : KList Address} {xs : List Address} (hl : IsList h l xs) :
    xs.length < 2 ^ 64 := by
  have hinj : Function.Injective UInt64.toFin := fun _ _ h => UInt64.toFin_inj.1 h
  have hnd : ((nodes l xs).map UInt64.toFin).Nodup := hl.nodup.map hinj
  have hcard := hnd.length_le_card
  rw [List.length_map, Fintype.card_fin] at hcard
  simp only [nodes, List.length_append, List.length_cons, List.length_nil] at hcard
  have hsize : UInt64.size = 2 ^ 64 := rfl
  omega

/-- From the heap `h` with the lists `F`, every function of `list.c` returns and does to the lists
what its abstract counterpart does to the sequences. A list that is not named keeps its elements:
`Family.put` changes one list. Loops return when they may make more iterations than the list has
elements. -/
structure Refines (h : Heap Address) (F : Family Address) : Prop where
  insert : ∀ l us vs e, F l = some (us ++ vs) → Free F e →
    wp (listInsert (some (firstOf l vs)) (some e)) h fun _ h' =>
      WellFormed h' (F.put l (us ++ e :: vs))
  pushFront : ∀ l xs e, F l = some xs → Free F e →
    wp (listPushFront l (some e)) h fun _ h' => WellFormed h' (F.put l (e :: xs))
  pushBack : ∀ l xs e, F l = some xs → Free F e →
    wp (listPushBack l (some e)) h fun _ h' => WellFormed h' (F.put l (xs ++ [e]))
  remove : ∀ l us e vs, F l = some (us ++ e :: vs) →
    wp (listRemove (some e)) h fun r h' => r = some (firstOf l vs) ∧
      WellFormed h' (F.put l (us ++ vs)) ∧ Free (F.put l (us ++ vs)) e
  popFront : ∀ l e xs, F l = some (e :: xs) →
    wp (listPopFront l) h fun r h' => r = some e ∧
      WellFormed h' (F.put l xs) ∧ Free (F.put l xs) e
  popBack : ∀ l xs e, F l = some (xs ++ [e]) →
    wp (listPopBack l) h fun r h' => r = some e ∧
      WellFormed h' (F.put l xs) ∧ Free (F.put l xs) e
  /-- The range `rng` of `l` goes to a position of `l'`, in the lists without the range. -/
  splice : ∀ l l' xs rng ys us vs, F l = some (xs ++ rng ++ ys) →
    F.put l (xs ++ ys) l' = some (us ++ vs) →
    wp (listSplice (some (firstOf l' vs)) (some (firstOf l (rng ++ ys))) (some (firstOf l ys))) h
      fun _ h' => WellFormed h' ((F.put l (xs ++ ys)).put l' (us ++ rng ++ vs))
  reverse : ∀ l xs fuel, F l = some xs → xs.length < fuel →
    wp (listReverse fuel l) h fun _ h' => WellFormed h' (F.put l xs.reverse)
  size : ∀ l xs fuel, F l = some xs → xs.length < fuel →
    wp (listSize fuel l) h fun n h' => n = xs.length ∧ h' = h
  forward : ∀ l xs fuel, F l = some xs → xs.length < fuel →
    wp (forward fuel l) h fun r h' => r = xs ∧ h' = h
  backward : ∀ l xs fuel, F l = some xs → xs.length < fuel →
    wp (backward fuel l) h fun r h' => r = xs.reverse ∧ h' = h

theorem lists_refine {h : Heap Address} {F : Family Address} (hwf : WellFormed h F) :
    Refines h F where
  insert := fun _ _ _ _ hl he => wp_listInsert hwf hl he
  pushFront := fun _ _ _ hl he => wp_listPushFront hwf hl he
  pushBack := fun _ _ _ hl he => wp_listPushBack hwf hl he
  remove := fun _ _ _ _ hl => wp_listRemove hwf hl
  popFront := fun _ _ _ hl => wp_listPopFront hwf hl
  popBack := fun _ _ _ hl => wp_listPopBack hwf hl
  splice := fun _ _ _ _ _ _ _ hl hl' => wp_listSplice hwf hl hl'
  reverse := fun _ _ _ hl hfuel => wp_listReverse hwf hl hfuel
  size := by
    intro l xs fuel hl hfuel
    have hlist := hwf.isList l xs hl
    rw [wp_listSize hlist hfuel, Nat.mod_eq_of_lt (length_lt hlist)]
    exact ⟨rfl, rfl⟩
  forward := fun l xs _ hl hfuel => (wp_forward (hwf.isList l xs hl) hfuel _).2 ⟨rfl, rfl⟩
  backward := fun l xs _ hl hfuel => (wp_backward (hwf.isList l xs hl) hfuel _).2 ⟨rfl, rfl⟩

/-- A heap with a list of two elements and an empty one. -/
def twoLists : Heap Address := fun x =>
  if x = 1 then ⟨none, some 3⟩ else if x = 3 then ⟨some 1, some 4⟩
  else if x = 4 then ⟨some 3, some 2⟩
  else if x = 2 then ⟨some 4, none⟩ else if x = 5 then ⟨none, some 6⟩
  else if x = 6 then ⟨some 5, none⟩ else ⟨none, none⟩

/-- The contents of its lists. -/
def twoFamily : Family Address := fun l =>
  if l = ⟨1, 2⟩ then some [3, 4] else if l = ⟨5, 6⟩ then some [] else none

theorem mem_twoFamily {l : KList Address} {xs : List Address} (hl : twoFamily l = some xs) :
    l = ⟨1, 2⟩ ∧ xs = [3, 4] ∨ l = ⟨5, 6⟩ ∧ xs = [] := by
  unfold twoFamily at hl
  split_ifs at hl with h1 h2
  · exact .inl ⟨h1, (Option.some.inj hl).symm⟩
  · exact .inr ⟨h2, (Option.some.inj hl).symm⟩

theorem lists_refine_twoLists : Refines twoLists twoFamily := by
  refine lists_refine ⟨fun l xs hl => ?_, fun l l' xs xs' hl hl' hne => ?_⟩
  · obtain ⟨rfl, rfl⟩ | ⟨rfl, rfl⟩ := mem_twoFamily hl
    · refine ⟨?_, by decide, rfl, rfl⟩
      exact .cons_cons ⟨rfl, rfl⟩ (.cons_cons ⟨rfl, rfl⟩ (.cons_cons ⟨rfl, rfl⟩ (.singleton _)))
    · exact ⟨.cons_cons ⟨rfl, rfl⟩ (.singleton _), by decide, rfl, rfl⟩
  · obtain ⟨rfl, rfl⟩ | ⟨rfl, rfl⟩ := mem_twoFamily hl <;>
      obtain ⟨rfl, rfl⟩ | ⟨rfl, rfl⟩ := mem_twoFamily hl'
    · exact absurd rfl hne
    · simp [nodes]
    · simp [nodes]
    · exact absurd rfl hne

end Pintos.LibKernel.ListLaws
