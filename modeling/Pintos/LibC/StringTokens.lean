import Mathlib.Data.List.GetD
import Pintos.Lib.MappedMemory

/-!
# Tokens

`strchr` and `strtok_r` of `lib/string.c`. The delimiters may be others in every call: `pieces` says
where the calls cut a text, each call in what the calls before have left, by its own set. For one
set the pieces are the maximal substrings without a delimiter (`pieces_fixed`). `strtok_splits` is
about the calls themselves; only the text, its terminator and the delimiters are assumed to be
mapped.
-/

set_option autoImplicit false

namespace Pintos.LibC.StringTokens

open Lib.StateExcept Lib.MappedMemory List

/-! ## The functions -/

/-- The loop of `strchr`. -/
def strchrFrom (c : UInt8) : Nat → Nat → MemoryM (Option Nat)
  | 0, _ => throw .endless
  | fuel + 1, string => do
    let x ← load string
    if x = c then return some string
    else if x = 0 then return none
    else strchrFrom c fuel (string + 1)

/-- `strchr`. -/
def strchr (string : Nat) (c : UInt8) : MemoryM (Option Nat) := do
  check (string ≠ 0) .assertion
  strchrFrom c (2 ^ 64) string

/-- The first loop of `strtok_r`: where it stops, and whether that is the end of the string. -/
def skipDelimiters (delimiters : Nat) : Nat → Nat → MemoryM (Nat × Bool)
  | 0, _ => throw .endless
  | fuel + 1, s => do
    if (← strchr delimiters (← load s)).isSome then
      if (← load s) = 0 then return (s, true) else skipDelimiters delimiters fuel (s + 1)
    else return (s, false)

/-- The second loop of `strtok_r`. -/
def skipToken (delimiters : Nat) : Nat → Nat → MemoryM Nat
  | 0, _ => throw .endless
  | fuel + 1, s => do
    if (← strchr delimiters (← load s)).isSome then return s else skipToken delimiters fuel (s + 1)

/-- `strtok_r`, with the value of `*save_ptr`: the token or `NULL`, and the new value. -/
def strtokR (s delimiters savePtr : Nat) : MemoryM (Nat × Nat) := do
  check (delimiters ≠ 0) .assertion
  check ((if s = 0 then savePtr else s) ≠ 0) .assertion
  let (token, ended) ← skipDelimiters delimiters (2 ^ 64) (if s = 0 then savePtr else s)
  if ended then return (0, token)
  else
    let s ← skipToken delimiters (2 ^ 64) token
    if (← load s) ≠ 0 then
      store s 0
      return (token, s + 1)
    else return (token, s)

/-- Calls with these delimiters: the first for the string `s`, the others for `NULL`. -/
def calls (s : Nat) : List Nat → Nat → MemoryM (List Nat)
  | [], _ => return []
  | d :: ds, savePtr => do
    let (token, savePtr) ← strtokR s d savePtr
    return token :: (← calls 0 ds savePtr)

/-! ## Where a text is cut -/

/-- The first position from `off` on with a character in the set, or the end. -/
def seek (P : UInt8 → Bool) (t : List UInt8) (off : Nat) : Nat := off + (t.drop off).findIdx P

/-- Where the search goes on after a token that ends at `e`. -/
def resume (t : List UInt8) (e : Nat) : Nat := if e = t.length then e else e + 1

/-- Where the calls cut the text: the start and the end of a token, or `none` when only delimiters
are left. -/
def pieces (t : List UInt8) : Nat → List (List UInt8) → List (Option (Nat × Nat))
  | _, [] => []
  | off, D :: Ds =>
    let p := seek (fun c => decide (c ∉ D)) t off
    let e := seek (fun c => decide (c ∈ D)) t p
    if p = t.length then none :: pieces t p Ds
    else some (p, e) :: pieces t (resume t e) Ds

/-- A maximal substring without a delimiter. -/
structure Maximal (D t : List UInt8) (i j : Nat) : Prop where
  nonempty : i < j
  inside : j ≤ t.length
  plain : ∀ k, i ≤ k → k < j → t.getD k 0 ∉ D
  before : i = 0 ∨ t.getD (i - 1) 0 ∈ D
  behind : j = t.length ∨ t.getD j 0 ∈ D

variable {p e : Nat}

section Positions

variable {D t : List UInt8} {off : Nat}

theorem seek_spec (P : UInt8 → Bool) (h : off ≤ t.length) :
    off ≤ seek P t off ∧ seek P t off ≤ t.length ∧
      (∀ k, off ≤ k → k < seek P t off → ¬ P (t.getD k 0) = true) ∧
      (seek P t off < t.length → P (t.getD (seek P t off) 0) = true) := by
  have hle : (t.drop off).findIdx P ≤ (t.drop off).length := findIdx_le_length
  rw [length_drop] at hle
  refine ⟨Nat.le_add_right .., by rw [seek]; omega, fun k hk hlt => ?_, fun hlt => ?_⟩
  · rw [seek] at hlt
    have hnot := not_of_lt_findIdx (by omega : k - off < (t.drop off).findIdx P)
    simp only [getElem_drop, Nat.add_sub_cancel' hk] at hnot
    rw [getD_eq_getElem _ _ (by omega), hnot]
    exact Bool.false_ne_true
  · have hlen : (t.drop off).findIdx P < (t.drop off).length := by
      rw [length_drop]
      rw [seek] at hlt
      omega
    have hat := findIdx_getElem (w := hlen)
    rw [getElem_drop] at hat
    rw [getD_eq_getElem _ _ hlt]
    exact hat

/-- The next token from `off` on is between `p` and `e`. -/
structure Next (D t : List UInt8) (off p e : Nat) : Prop where
  lead : ∀ k, off ≤ k → k < p → t.getD k 0 ∈ D
  start : off ≤ p
  nonempty : p < e
  inside : e ≤ t.length
  plain : ∀ k, p ≤ k → k < e → t.getD k 0 ∉ D
  stop : e < t.length → t.getD e 0 ∈ D

theorem next_seek (hoff : off ≤ t.length) (hp : p = seek (fun c => decide (c ∉ D)) t off) :
    (∀ k, off ≤ k → k < p → t.getD k 0 ∈ D) ∧ off ≤ p ∧ p ≤ t.length ∧
      (p ≠ t.length → Next D t off p (seek (fun c => decide (c ∈ D)) t p)) := by
  obtain ⟨hpoff, hple, hlead, hstart⟩ := seek_spec (fun c => decide (c ∉ D)) hoff
  rw [← hp] at hpoff hple hlead hstart
  simp only [decide_eq_true_eq, not_not] at hlead hstart
  refine ⟨hlead, hpoff, hple, fun hne => ?_⟩
  obtain ⟨hpe, hele, hplain, hstop⟩ := seek_spec (fun c => decide (c ∈ D)) hple
  simp only [decide_eq_true_eq] at hplain hstop
  refine ⟨hlead, hpoff, lt_of_le_of_ne hpe fun heq => ?_, hele, hplain, hstop⟩
  rw [← heq] at hstop
  exact hstart (by omega) (hstop (by omega))

/-- A maximal substring from `off` on is the next token, or lies behind it. -/
theorem Next.maximal_iff (h : Next D t off p e)
    (hbefore : off = 0 ∨ off = t.length ∨ t.getD (off - 1) 0 ∈ D) (i j : Nat) :
    off ≤ i ∧ Maximal D t i j ↔ (i = p ∧ j = e) ∨ resume t e ≤ i ∧ Maximal D t i j := by
  have hstart := h.start
  have hpe := h.nonempty
  have hele := h.inside
  refine ⟨fun ⟨hi, hmax⟩ => ?_, ?_⟩
  · have hij := hmax.nonempty
    have hj := hmax.inside
    have hpi : p ≤ i := by
      by_contra hlt
      exact hmax.plain i le_rfl hij (h.lead i hi (by omega))
    rcases Nat.lt_or_ge i e with hie | hie
    · -- inside the token: at its start, up to its end
      refine .inl ?_
      have hip : i = p := by
        by_contra hne
        rcases hmax.before with h0 | hprev
        · omega
        · exact h.plain (i - 1) (by omega) (by omega) hprev
      have hje : j ≤ e := by
        by_contra hlt
        exact hmax.plain e (by omega) (by omega) (h.stop (by omega))
      have hej : e ≤ j := by
        by_contra hlt
        rcases hmax.behind with hlen | hnext
        · omega
        · exact h.plain j (by omega) (by omega) hnext
      exact ⟨hip, by omega⟩
    · refine .inr ⟨?_, hmax⟩
      have hne : i ≠ e := by
        rintro rfl
        exact hmax.plain i le_rfl hij (h.stop (by omega))
      rw [resume]
      split_ifs <;> omega
  · rintro (⟨rfl, rfl⟩ | ⟨hi, hmax⟩)
    · refine ⟨hstart, hpe, hele, h.plain, ?_, ?_⟩
      · rcases hstart.eq_or_lt with heq | hlt
        · rw [← heq]
          rcases hbefore with h0 | hlen | hprev
          · exact .inl h0
          · omega
          · exact .inr hprev
        · exact .inr (h.lead (i - 1) (by omega) (by omega))
      · rcases hele.eq_or_lt with heq | hlt
        · exact .inl heq
        · exact .inr (h.stop hlt)
    · refine ⟨?_, hmax⟩
      rw [resume] at hi
      split_ifs at hi <;> omega

/-- At the end there are no more tokens. -/
theorem pieces_end (t D : List UInt8) (k : Nat) :
    pieces t t.length (List.replicate k D) = List.replicate k none := by
  have hseek : ∀ P, seek P t t.length = t.length := fun P => by
    rw [seek, drop_length, findIdx_nil, add_zero]
  induction k with
  | zero => rfl
  | succ k ih => rw [replicate_succ, pieces, hseek, if_pos rfl, ih, replicate_succ]

/-- For one set of delimiters, the pieces from a position behind a delimiter on are the maximal
substrings without one, and then there are none. -/
theorem pieces_fixed (D t : List UInt8) (n : Nat) {off : Nat} (hn : t.length - off = n)
    (hoff : off ≤ t.length) (hbefore : off = 0 ∨ off = t.length ∨ t.getD (off - 1) 0 ∈ D) :
    ∃ runs : List (Nat × Nat), (∀ i j, (i, j) ∈ runs ↔ off ≤ i ∧ Maximal D t i j) ∧
      runs.Pairwise (fun a b => a.2 < b.1) ∧
      ∀ k, pieces t off (List.replicate (runs.length + k) D) =
        runs.map some ++ List.replicate k none := by
  induction n using Nat.strong_induction_on generalizing off with
  | _ n ih =>
    obtain ⟨p, hp⟩ : ∃ p, p = seek (fun c => decide (c ∉ D)) t off := ⟨_, rfl⟩
    obtain ⟨hlead, hpoff, hple, hnext⟩ := next_seek hoff hp
    by_cases hend : p = t.length
    · -- only delimiters are left
      refine ⟨[], fun i j => ⟨nofun, fun ⟨hi, hmax⟩ => ?_⟩, List.Pairwise.nil, fun k => ?_⟩
      · have := hmax.nonempty
        have := hmax.inside
        exact absurd (hlead i hi (by omega)) (hmax.plain i le_rfl hmax.nonempty)
      · cases k with
        | zero => rfl
        | succ k =>
          rw [length_nil, zero_add, replicate_succ, pieces, ← hp, if_pos hend, hend,
            pieces_end]
          rfl
    · have h := hnext hend
      obtain ⟨e, he⟩ : ∃ e, e = seek (fun c => decide (c ∈ D)) t p := ⟨_, rfl⟩
      rw [← he] at h
      have hpe := h.nonempty
      have hele := h.inside
      have hres : e ≤ resume t e ∧ resume t e ≤ t.length := by
        rw [resume]
        split_ifs <;> omega
      have hbefore' : resume t e = 0 ∨ resume t e = t.length ∨ t.getD (resume t e - 1) 0 ∈ D := by
        rw [resume]
        split_ifs with heq
        · exact .inr (.inl heq)
        · exact .inr (.inr (h.stop (by omega)))
      obtain ⟨runs, hmem, hpair, hrest⟩ := ih _ (by omega) rfl hres.2 hbefore'
      refine ⟨(p, e) :: runs, fun i j => ?_, pairwise_cons.2 ⟨fun r hr => ?_, hpair⟩, fun k => ?_⟩
      · rw [h.maximal_iff hbefore, mem_cons, Prod.mk.injEq, hmem]
      · obtain ⟨hr1, hmax⟩ := (hmem r.1 r.2).1 hr
        have := hmax.nonempty
        have := hmax.inside
        rw [resume] at hr1
        split_ifs at hr1 <;> omega
      · rw [length_cons, add_right_comm, replicate_succ, pieces, ← hp, ← he, if_neg hend]
        exact congrArg (some (p, e) :: ·) (hrest k)

end Positions

/-! ## The calls -/

section Calls

variable {M : Memory} {a d : Nat} {c : UInt8} {D t u : List UInt8} {fuel s off s' save : Nat}

theorem wp_strchrFrom (hd : Text M d D) (hfuel : D.length < fuel) :
    wp (strchrFrom c fuel d) M fun r M' => (r.isSome = true ↔ c = 0 ∨ c ∈ D) ∧ M' = M := by
  induction fuel generalizing d D with
  | zero => omega
  | succ fuel ih =>
    rw [strchrFrom, wp_bind]
    refine wp_load hd.mapped_head ?_
    cases D with
    | nil =>
      rw [hd.byte_nil]
      by_cases hc : 0 = c
      · simp [hc]
      · rw [if_neg hc, if_pos rfl, wp_pure]
        simp [Ne.symm hc]
    | cons x D =>
      rw [hd.byte_cons]
      by_cases hc : x = c
      · simp [hc]
      · rw [if_neg hc, if_neg (hd.nonzero x mem_cons_self)]
        refine wp_mono (ih hd.tail (Nat.lt_of_succ_lt_succ hfuel)) ?_
        rintro r M' ⟨hr, hM⟩
        exact ⟨hr.trans (by simp [Ne.symm hc]), hM⟩

/-- Every string contains its terminator. -/
theorem wp_strchr (hd : Text M d D) (c : UInt8) :
    wp (strchr d c) M fun r M' => (r.isSome = true ↔ c = 0 ∨ c ∈ D) ∧ M' = M := by
  have hbound := M.bounded _ (hd.mapped D.length (Nat.lt_succ_self _))
  rw [strchr, wp_bind, wp_check]
  exact ⟨hd.ne_null, wp_strchrFrom hd (by omega)⟩

theorem wp_skipDelimiters (hd : Text M d D) (hu : Text M a u) (hfuel : u.length < fuel) :
    wp (skipDelimiters d fuel a) M fun r M' =>
      r = (a + u.findIdx (fun c => decide (c ∉ D)),
        decide (u.findIdx (fun c => decide (c ∉ D)) = u.length)) ∧
      M' = M := by
  induction fuel generalizing a u with
  | zero => omega
  | succ fuel ih =>
    rw [skipDelimiters, wp_bind]
    refine wp_load hu.mapped_head ?_
    rw [wp_bind]
    refine wp_mono (wp_strchr hd _) ?_
    rintro r M' ⟨hr, rfl⟩
    cases u with
    | nil =>
      rw [if_pos (hr.2 (.inl hu.byte_nil)), wp_bind]
      refine wp_load hu.mapped_head ?_
      rw [if_pos hu.byte_nil, wp_pure]
      exact ⟨rfl, rfl⟩
    | cons x u =>
      have hx : x ≠ 0 := hu.nonzero x mem_cons_self
      rw [hu.byte_cons] at hr
      by_cases hmem : x ∈ D
      · rw [if_pos (hr.2 (.inr hmem)), wp_bind]
        refine wp_load hu.mapped_head ?_
        rw [if_neg (hu.byte_cons ▸ hx)]
        refine wp_mono (ih hu.tail (Nat.lt_of_succ_lt_succ hfuel)) ?_
        rintro r M'' ⟨rfl, hM⟩
        simp [findIdx_cons, hmem, hM]
        omega
      · rw [if_neg (fun h => (hr.1 h).elim hx hmem), wp_pure]
        simp [findIdx_cons, hmem]

theorem wp_skipToken (hd : Text M d D) (hu : Text M a u) (hfuel : u.length < fuel) :
    wp (skipToken d fuel a) M fun r M' => r = a + u.findIdx (fun c => decide (c ∈ D)) ∧ M' = M := by
  induction fuel generalizing a u with
  | zero => omega
  | succ fuel ih =>
    rw [skipToken, wp_bind]
    refine wp_load hu.mapped_head ?_
    rw [wp_bind]
    refine wp_mono (wp_strchr hd _) ?_
    rintro r M' ⟨hr, rfl⟩
    cases u with
    | nil =>
      rw [if_pos (hr.2 (.inl hu.byte_nil)), wp_pure]
      exact ⟨rfl, rfl⟩
    | cons x u =>
      rw [hu.byte_cons] at hr
      by_cases hmem : x ∈ D
      · rw [if_pos (hr.2 (.inr hmem)), wp_pure]
        simp [findIdx_cons, hmem]
      · rw [if_neg (fun h => (hr.1 h).elim (hu.nonzero x mem_cons_self) hmem)]
        refine wp_mono (ih hu.tail (Nat.lt_of_succ_lt_succ hfuel)) ?_
        rintro r M'' ⟨rfl, hM⟩
        simp [findIdx_cons, hmem, hM]
        omega

/-- What is left of the text from a later position on. -/
theorem text_drop {k : Nat} (hs : Text M (s + off) (t.drop off)) (hk : off ≤ k)
    (hkl : k ≤ t.length) :
    Text M (s + k) (t.drop k) := by
  have hsplit := take_append_drop (k - off) (t.drop off)
  rw [drop_drop, Nat.add_sub_cancel' hk] at hsplit
  have hdrop := Text.drop (hsplit.symm ▸ hs)
  rwa [length_take_of_le (by rw [length_drop]; omega), add_assoc,
    Nat.add_sub_cancel' hk] at hdrop

/-- One call: the next token by its own delimiters, cut off by a zero. -/
theorem wp_strtokR (hs : Text M (s + off) (t.drop off)) (hoff : off ≤ t.length) (hd : Text M d D)
    (hq : (if s' = 0 then save else s') = s + off) (hp : p = seek (fun c => decide (c ∉ D)) t off)
    (he : e = seek (fun c => decide (c ∈ D)) t p) :
    wp (strtokR s' d save) M fun r M' =>
      (p = t.length → r = (0, s + p) ∧ M' = M) ∧
      (p ≠ t.length → r = (s + p, s + resume t e) ∧
        M' = if e = t.length then M else M.put (s + e) 0) := by
  have hbound := M.bounded _ (hs.mapped _ (Nat.lt_succ_self _))
  have hlen : (t.drop off).length = t.length - off := length_drop
  obtain ⟨-, hpoff, hple, hnext⟩ := next_seek (D := D) hoff hp
  rw [strtokR, wp_bind, wp_check, wp_bind, wp_check, hq]
  refine ⟨hd.ne_null, hs.ne_null, ?_⟩
  rw [wp_bind]
  refine wp_mono (wp_skipDelimiters hd hs (by omega)) ?_
  rintro r M' ⟨rfl, rfl⟩
  have hsp : s + off + (t.drop off).findIdx (fun c => decide (c ∉ D)) = s + p := by
    rw [hp, seek, add_assoc]
  have hidx : (t.drop off).findIdx (fun c => decide (c ∉ D)) = (t.drop off).length ↔
      p = t.length := by
    omega
  dsimp only
  rw [hsp]
  by_cases hend : p = t.length
  · rw [if_pos (decide_eq_true (hidx.2 hend)), wp_pure]
    exact ⟨fun _ => ⟨rfl, rfl⟩, fun hne => absurd hend hne⟩
  · rw [if_neg (fun h => hend (hidx.1 (of_decide_eq_true h))), wp_bind]
    have h := hnext hend
    rw [← he] at h
    have hele := h.inside
    refine wp_mono (wp_skipToken hd (text_drop hs hpoff hple) (by rw [length_drop]; omega)) ?_
    rintro r M'' ⟨rfl, rfl⟩
    have hse : s + p + (t.drop p).findIdx (fun c => decide (c ∈ D)) = s + e := by
      rw [he, seek, add_assoc]
    have hat := text_drop hs (by omega : off ≤ e) hele
    rw [hse, wp_bind]
    refine wp_load hat.mapped_head ?_
    by_cases hlast : e = t.length
    · rw [hlast, drop_length] at hat
      rw [hlast, if_neg (not_not.2 hat.byte_nil), wp_pure, if_pos rfl, resume, if_pos rfl]
      exact ⟨fun h => absurd h hend, fun _ => ⟨rfl, rfl⟩⟩
    · have hbyte : M''.bytes (s + e) ≠ 0 := by
        rw [drop_eq_getElem_cons (by omega)] at hat
        rw [hat.byte_cons]
        exact hat.nonzero _ mem_cons_self
      rw [if_pos hbyte, wp_bind]
      refine wp_store hat.mapped_head ?_
      rw [wp_pure, if_neg hlast, resume, if_neg hlast]
      exact ⟨fun h => absurd h hend, fun _ => ⟨rfl, rfl⟩⟩

/-- The pointer that a call returns for a piece of the text at `s`. -/
def pointer (s : Nat) : Option (Nat × Nat) → Nat
  | none => 0
  | some r => s + r.1

/-- The memory with a zero at the end of each of the pieces, unless it ends with the text. -/
structure Cut (s : Nat) (t : List UInt8) (l : List (Option (Nat × Nat)))
    (M M' : Memory) : Prop where
  ends : ∀ i j, some (i, j) ∈ l → j < t.length → M'.bytes (s + j) = 0
  others : ∀ x, (∀ i j, some (i, j) ∈ l → j < t.length → x ≠ s + j) → M'.bytes x = M.bytes x

/-- One more piece is cut off before the others. -/
theorem Cut.cons {l : List (Option (Nat × Nat))} {M' : Memory} (he : e ≤ t.length)
    (h : Cut s t l (if e = t.length then M else M.put (s + e) 0) M') :
    Cut s t (some (p, e) :: l) M M' := by
  refine ⟨fun i j hmem hj => ?_, fun x hx => ?_⟩
  · rcases mem_cons.1 hmem with heq | hmem
    · obtain ⟨rfl, rfl⟩ := Prod.mk.inj (Option.some.inj heq)
      by_cases hagain : ∀ i k, some (i, k) ∈ l → k < t.length → s + j ≠ s + k
      · rw [h.others _ hagain, if_neg (by omega), put_bytes_self]
      · push Not at hagain
        obtain ⟨i', k, hk, hlt, heq⟩ := hagain
        rw [heq]
        exact h.ends i' k hk hlt
    · exact h.ends i j hmem hj
  · rw [h.others x fun i j hmem => hx i j (mem_cons_of_mem _ hmem)]
    split_ifs with hlast
    · rfl
    · exact put_bytes_of_ne (hx p e mem_cons_self (by omega)) 0

/-- A string that is stored apart from the text. -/
def Beside (M : Memory) (s : Nat) (t : List UInt8) (d : Nat × List UInt8) : Prop :=
  Text M d.1 d.2 ∧ (d.1 + d.2.length < s ∨ s + t.length < d.1)

/-- Calls with any delimiters cut the text into the pieces. -/
theorem wp_calls (ds : List (Nat × List UInt8)) (hs : Text M (s + off) (t.drop off))
    (hoff : off ≤ t.length) (hq : (if s' = 0 then save else s') = s + off)
    (hds : ∀ d ∈ ds, Beside M s t d) :
    wp (calls s' (ds.map Prod.fst) save) M fun r M' =>
      r = (pieces t off (ds.map Prod.snd)).map (pointer s) ∧
      Cut s t (pieces t off (ds.map Prod.snd)) M M' := by
  induction ds generalizing M s' save off with
  | nil => exact (wp_pure _ M _).2 ⟨rfl, nofun, fun _ _ => rfl⟩
  | cons d ds ih =>
    obtain ⟨p, hp⟩ : ∃ p, p = seek (fun c => decide (c ∉ d.2)) t off := ⟨_, rfl⟩
    obtain ⟨e, he⟩ : ∃ e, e = seek (fun c => decide (c ∈ d.2)) t p := ⟨_, rfl⟩
    obtain ⟨-, hpoff, hple, hnext⟩ := next_seek hoff hp
    have hrest : ∀ d' ∈ ds, Beside M s t d' := fun d' hd' => hds d' (mem_cons_of_mem d hd')
    rw [map_cons, map_cons, calls, wp_bind]
    refine wp_mono (wp_strtokR hs hoff (hds d mem_cons_self).1 hq hp he) ?_
    rintro ⟨token, save'⟩ M₁ ⟨hnone, hsome⟩
    rw [wp_bind, pieces, ← hp, ← he]
    by_cases hend : p = t.length
    · obtain ⟨heq, rfl⟩ := hnone hend
      obtain ⟨rfl, rfl⟩ := Prod.mk.inj heq
      refine wp_mono (ih (text_drop hs hpoff hple) hple (if_pos rfl) hrest) ?_
      rintro r M' ⟨rfl, hcut⟩
      rw [wp_pure, if_pos hend, map_cons]
      refine ⟨rfl, fun i j hmem => hcut.ends i j ((mem_cons.1 hmem).resolve_left nofun),
        fun x hx => ?_⟩
      exact hcut.others x fun i j hmem => hx i j (mem_cons_of_mem _ hmem)
    · obtain ⟨heq, hM₁⟩ := hsome hend
      obtain ⟨rfl, rfl⟩ := Prod.mk.inj heq
      have h := hnext hend
      rw [← he] at h
      have hpe := h.nonempty
      have hele := h.inside
      have hmapped : M₁.mapped = M.mapped := by
        rw [hM₁]
        split_ifs <;> rfl
      have hbytes : ∀ x, x ≠ s + e ∨ e = t.length → M₁.bytes x = M.bytes x := fun x hx => by
        rw [hM₁]
        split_ifs with hlast
        · rfl
        · exact put_bytes_of_ne (hx.resolve_right hlast) 0
      have hres : e ≤ resume t e ∧ resume t e ≤ t.length ∧ (resume t e = e → e = t.length) := by
        rw [resume]
        split_ifs <;> omega
      have hs₁ : Text M₁ (s + resume t e) (t.drop (resume t e)) :=
        (text_drop hs (by omega) hres.2.1).congr hmapped fun i _ => hbytes _ (by omega)
      refine wp_mono (ih hs₁ hres.2.1 (if_pos rfl) fun d' hd' => ?_) ?_
      · obtain ⟨htext, hapart⟩ := hrest d' hd'
        exact ⟨htext.congr hmapped fun i hi => hbytes _ (by omega), hapart⟩
      · rintro r M' ⟨rfl, hcut⟩
        rw [wp_pure, if_neg hend, map_cons]
        exact ⟨rfl, Cut.cons hele (hM₁ ▸ hcut)⟩

end Calls

/-- `strtok_r` on a string and then on `NULL`. With one set of delimiters the calls return the
maximal substrings without a delimiter, in order, and then `NULL` as often as they are repeated;
with any sets each call cuts what is left by its own. Only delimiters behind tokens are overwritten,
with zeros, and nothing is accessed but the string up to its terminator and the delimiters. -/
theorem strtok_splits (M : Memory) (s save : Nat) (t : List UInt8) (hs : Text M s t) :
    (∀ d, Beside M s t d → ∃ runs : List (Nat × Nat),
      (∀ i j, (i, j) ∈ runs ↔ Maximal d.2 t i j) ∧ runs.Pairwise (fun a b => a.2 < b.1) ∧
      ∀ n, ∃ M', calls s (List.replicate (runs.length + n) d.1) save M =
          .ok (runs.map (fun r => s + r.1) ++ List.replicate n 0, M') ∧
        Cut s t (runs.map some) M M') ∧
    ∀ ds : List (Nat × List UInt8), (∀ d ∈ ds, Beside M s t d) →
      ∃ M', calls s (ds.map Prod.fst) save M =
          .ok ((pieces t 0 (ds.map Prod.snd)).map (pointer s), M') ∧
        Cut s t (pieces t 0 (ds.map Prod.snd)) M M' := by
  have hcalls : ∀ ds : List (Nat × List UInt8), (∀ d ∈ ds, Beside M s t d) →
      ∃ M', calls s (ds.map Prod.fst) save M =
          .ok ((pieces t 0 (ds.map Prod.snd)).map (pointer s), M') ∧
        Cut s t (pieces t 0 (ds.map Prod.snd)) M M' := fun ds hds => by
    have h0 : Text M (s + 0) (t.drop 0) := hs
    obtain ⟨r, M', hrun, rfl, hcut⟩ := wp_calls ds h0 (Nat.zero_le _) (if_neg hs.ne_null) hds
    exact ⟨M', hrun, hcut⟩
  refine ⟨fun d hd => ?_, hcalls⟩
  obtain ⟨runs, hmem, hpair, hpieces⟩ := pieces_fixed d.2 t _ rfl (Nat.zero_le _) (.inl rfl)
  refine ⟨runs, fun i j => (hmem i j).trans (and_iff_right (Nat.zero_le i)), hpair, fun n => ?_⟩
  obtain ⟨M', hrun, hcut⟩ := hcalls (List.replicate (runs.length + n) d)
    fun d' hd' => eq_of_mem_replicate hd' ▸ hd
  rw [map_replicate, map_replicate, hpieces n, map_append, map_map,
    map_replicate] at hrun
  rw [map_replicate, hpieces n] at hcut
  refine ⟨M', hrun, fun i j hr => hcut.ends i j (mem_append_left _ hr), fun x hx => ?_⟩
  refine hcut.others x fun i j hr => ?_
  rcases mem_append.1 hr with hr | hr
  · exact hx i j hr
  · exact absurd (eq_of_mem_replicate hr) nofun

/-- The string " ab c" at 1, and a string of one space behind it. -/
def sentence : Memory where
  bytes := fun a => [0, 32, 97, 98, 32, 99, 0, 32, 0].getD a 0
  mapped := fun a => decide (0 < a ∧ a < 9)
  null := rfl
  bounded := fun a ha => by
    have := of_decide_eq_true ha
    omega

theorem strtok_splits_sentence :
    ∃ runs : List (Nat × Nat), (1, 3) ∈ runs ∧ (4, 5) ∈ runs ∧ (2, 3) ∉ runs ∧
      ∀ n, ∃ M', calls 1 (List.replicate (runs.length + n) 7) 0 sentence =
        .ok (runs.map (fun r => 1 + r.1) ++ List.replicate n 0, M') := by
  have hmapped : ∀ a n, 0 < a → a + n ≤ 9 → Mapped sentence a n := fun a n ha hn i hi => by
    simp only [sentence, decide_eq_true_eq]
    omega
  have htext : Text sentence 1 [32, 97, 98, 32, 99] :=
    ⟨hmapped 1 6 (by decide) (by decide), ⟨rfl, rfl, rfl, rfl, rfl, rfl, trivial⟩, by simp⟩
  obtain ⟨runs, hmem, -, hrun⟩ := (strtok_splits sentence 1 0 _ htext).1 (7, [32])
    ⟨⟨hmapped 7 2 (by decide) (by decide), ⟨rfl, rfl, trivial⟩, by simp⟩, .inr (by decide)⟩
  refine ⟨runs, (hmem 1 3).2 ⟨by decide, by decide, ?_, by decide, by decide⟩,
    (hmem 4 5).2 ⟨by decide, by decide, ?_, by decide, by decide⟩, fun h => ?_,
    fun n => (hrun n).imp fun _ h => h.1⟩
  · intro k h₁ h₂
    interval_cases k <;> decide
  · intro k h₁ h₂
    interval_cases k
    decide
  · exact absurd ((hmem 2 3).1 h).before (by decide)

end Pintos.LibC.StringTokens
