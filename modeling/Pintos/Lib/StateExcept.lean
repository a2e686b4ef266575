import Mathlib.Tactic

/-!
# Computations with state and failure

A computation reads and updates a state of type `σ` and either returns a value or stops with an
error of type `ε`. `wp x s Q` states total correctness from the state `s`: `x` returns a value,
and the value and the final state satisfy `Q`. The rules below execute a computation symbolically,
one primitive at a time; `wp_bind` splits a sequence at its first computation. `wlp` is the partial
version, about the computations that return, and `ends` says in addition with which errors a
computation may stop.
-/

set_option autoImplicit false

namespace Pintos.Lib.StateExcept

open List

variable {σ ε : Type} {α β : Type} {s : σ} {Q R : α → σ → Prop} {a : α} {b : β} {l : List α}
  {E : ε → Prop}

/-- Computations on the state `σ` that may stop with an error `ε`. -/
abbrev Comp (σ ε : Type) (α : Type) : Type := StateT σ (Except ε) α

/-- Stop with an error unless `p` holds. -/
def check (p : Prop) [Decidable p] (e : ε) : Comp σ ε Unit :=
  if p then pure () else throw e

/-- From `s`, the computation returns a value and a state that satisfy `Q`. -/
def wp (x : Comp σ ε α) (s : σ) (Q : α → σ → Prop) : Prop :=
  ∃ a s', x s = .ok (a, s') ∧ Q a s'

variable {x : Comp σ ε α} {f : α → Comp σ ε β}

theorem wp_mono (h : wp x s Q) (hQR : ∀ a s', Q a s' → R a s') : wp x s R := by
  obtain ⟨a, s', hx, hQ⟩ := h
  exact ⟨a, s', hx, hQR a s' hQ⟩

/-- A value that a computation returns satisfies what is proved of every returned value. -/
theorem wp_of_eq_ok {s' : σ} (h : wp x s Q) (hx : x s = .ok (a, s')) : Q a s' := by
  obtain ⟨b, t, hb, hQ⟩ := h
  rw [hx] at hb
  cases hb
  exact hQ

/-- What a computation returns, or the error it stops with. -/
def result (x : Comp σ ε α) (s : σ) : Except ε α := (x s).map Prod.fst

theorem result_of_wp {Q : σ → Prop} (h : wp x s fun b t => b = a ∧ Q t) : result x s = .ok a := by
  obtain ⟨b, t, hx, rfl, -⟩ := h
  rw [result, hx]
  rfl

/-- A computation that has been evaluated. -/
theorem eq_ok_of_toOption {x : Except ε α} (h : x.toOption = some a) : x = .ok a := by
  cases x with
  | error e => cases h
  | ok b =>
    cases h
    rfl

theorem exists_ok_of_any {x : Except ε α} {p : α → Bool} (h : x.toOption.any p = true) :
    ∃ a, x = .ok a ∧ p a = true := by
  obtain ⟨a, ha, hp⟩ := (Option.any_eq_true _ _).1 h
  exact ⟨a, eq_ok_of_toOption ha, hp⟩

/-- Sequences that agree step by step on what happens from `s`. -/
theorem bind_congr_at {y : Comp σ ε α} {g : α → Comp σ ε β} (hxy : x s = y s)
    (h : ∀ a t, y s = .ok (a, t) → f a t = g a t) : (x >>= f) s = (y >>= g) s := by
  change (x s >>= fun p => f p.1 p.2) = (y s >>= fun p => g p.1 p.2)
  rw [hxy]
  cases hy : y s with
  | error e => rfl
  | ok p => exact h p.1 p.2 hy

/-- What follows a computation that returns runs from the state it leaves. -/
theorem bind_eq_of_ok {t : σ} (hx : x s = .ok (a, t)) : (x >>= f) s = f a t := by
  change (x s >>= fun p => f p.1 p.2) = _
  rw [hx]
  rfl

/-- Asking a list of questions until one answer is no, in two parts. -/
theorem allM_append (p : α → Comp σ ε Bool) (l l' : List α) :
    (l ++ l').allM p = (l.allM p >>= fun b => if b then l'.allM p else pure false) := by
  induction l with
  | nil => rfl
  | cons a l ih =>
    funext s
    change (p a >>= fun b => match b with | true => (l ++ l').allM p | false => pure false) s =
      ((p a >>= fun b => match b with | true => l.allM p | false => pure false) >>= _) s
    rw [bind_assoc]
    refine bind_congr_at rfl ?_
    intro b t _
    cases b with
    | true => exact congrFun ih t
    | false => rfl

/-! ## Computations that only read -/

/-- From `s` the computation returns `a` and leaves the state as it is. -/
def Reads (x : Comp σ ε α) (s : σ) (a : α) : Prop := x s = .ok (a, s)

/-- What follows a computation that only reads runs from the same state. -/
theorem Reads.bind_eq (hx : Reads x s a) :
    (x >>= f) s = f a s :=
  bind_eq_of_ok hx

theorem Reads.bind (hx : Reads x s a) (hf : Reads (f a) s b) : Reads (x >>= f) s b :=
  hx.bind_eq.trans hf

theorem Reads.check {p : Prop} [Decidable p] (h : p) (e : ε) : Reads (check p e) s () := by
  rw [StateExcept.check, if_pos h]
  rfl

/-- A loop that stops at the first yes. -/
theorem Reads.anyM {f : α → Comp σ ε Bool} {g : α → Bool} (h : ∀ a ∈ l, Reads (f a) s (g a)) :
    Reads (l.anyM f) s (l.any g) := by
  induction l with
  | nil => rfl
  | cons a l ih =>
    have hl := ih fun b hb => h b (mem_cons_of_mem _ hb)
    refine (h a mem_cons_self).bind ?_
    rw [any_cons]
    cases g a with
    | true => rfl
    | false => exact hl

/-- A search for the first yes. -/
theorem Reads.findM? {f : α → Comp σ ε Bool} {g : α → Bool} (h : ∀ a ∈ l, Reads (f a) s (g a)) :
    Reads (l.findM? f) s (l.find? g) := by
  induction l with
  | nil => rfl
  | cons a l ih =>
    have hl := ih fun b hb => h b (mem_cons_of_mem _ hb)
    refine (h a mem_cons_self).bind ?_
    rw [List.find?_cons]
    cases g a with
    | true => rfl
    | false => exact hl

/-- A loop with an accumulator. -/
theorem Reads.foldlM {f : β → α → Comp σ ε β} {g : β → α → β}
    (h : ∀ a ∈ l, ∀ b, Reads (f b a) s (g b a)) : Reads (l.foldlM f b) s (l.foldl g b) := by
  induction l generalizing b with
  | nil => rfl
  | cons a l ih =>
    exact (h a mem_cons_self b).bind (ih fun c hc => h c (mem_cons_of_mem _ hc))

/-- Two facts about the same computation. -/
theorem wp_and (hQ : wp x s Q) (hR : wp x s R) :
    wp x s fun a s' => Q a s' ∧ R a s' := by
  obtain ⟨a, s', hx, h⟩ := hQ
  exact ⟨a, s', hx, h, wp_of_eq_ok hR hx⟩

/-- A computation whose value and final state are known is executed by rewriting. -/
theorem wp_iff_of_wp {t : σ} (h : wp x s fun b u => b = a ∧ u = t) (Q : α → σ → Prop) :
    wp x s Q ↔ Q a t := by
  constructor
  · rintro ⟨b, u, hx, hQ⟩
    obtain ⟨rfl, rfl⟩ := wp_of_eq_ok h hx
    exact hQ
  · intro hQ
    apply wp_mono h
    rintro b u ⟨rfl, rfl⟩
    exact hQ

@[simp] theorem wp_pure (a : α) (s : σ) (Q : α → σ → Prop) :
    wp (pure a : Comp σ ε α) s Q ↔ Q a s := by
  constructor
  · rintro ⟨b, t, hb, hQ⟩
    cases hb
    exact hQ
  · intro hQ
    exact ⟨a, s, rfl, hQ⟩

@[simp] theorem wp_bind (x : Comp σ ε α) (f : α → Comp σ ε β) (s : σ) (Q : β → σ → Prop) :
    wp (x >>= f) s Q ↔ wp x s (fun a t => wp (f a) t Q) := by
  constructor
  · rintro ⟨b, t, hb, hQ⟩
    cases hx : x s with
    | error e =>
      have hbind : (x >>= f) s = .error e := by
        simp [bind, StateT.bind, hx, Except.bind]
      rw [hbind] at hb
      cases hb
    | ok p =>
      obtain ⟨a, u⟩ := p
      have hbind : (x >>= f) s = f a u := by
        simp [bind, StateT.bind, hx, Except.bind]
      exact ⟨a, u, hx, b, t, hbind ▸ hb, hQ⟩
  · rintro ⟨a, u, hx, b, t, hb, hQ⟩
    refine ⟨b, t, ?_, hQ⟩
    simp [bind, StateT.bind, hx, Except.bind, hb]

@[simp] theorem wp_map (f : α → β) (x : Comp σ ε α) (s : σ) (Q : β → σ → Prop) :
    wp (f <$> x) s Q ↔ wp x s (fun a t => Q (f a) t) := by
  rw [map_eq_pure_bind, wp_bind]
  simp only [wp_pure]

@[simp] theorem wp_get (s : σ) (Q : σ → σ → Prop) :
    wp (get : Comp σ ε σ) s Q ↔ Q s s :=
  wp_pure s s Q

@[simp] theorem wp_modify (f : σ → σ) (s : σ) (Q : Unit → σ → Prop) :
    wp (modify f : Comp σ ε Unit) s Q ↔ Q () (f s) := by
  constructor
  · rintro ⟨b, t, hb, hQ⟩
    cases hb
    exact hQ
  · intro hQ
    exact ⟨(), f s, rfl, hQ⟩

@[simp] theorem wp_set (t s : σ) (Q : Unit → σ → Prop) :
    wp (set t : Comp σ ε Unit) s Q ↔ Q () t :=
  wp_modify (fun _ => t) s Q

@[simp] theorem wp_throw (e : ε) (s : σ) (Q : α → σ → Prop) :
    wp (throw e : Comp σ ε α) s Q ↔ False := by
  constructor
  · rintro ⟨b, t, hb, -⟩
    cases hb
  · exact False.elim

@[simp] theorem wp_check (p : Prop) [Decidable p] (e : ε) (s : σ) (Q : Unit → σ → Prop) :
    wp (check p e : Comp σ ε Unit) s Q ↔ p ∧ Q () s := by
  by_cases hp : p
  · simp [check, hp]
  · simp [check, hp]

theorem wp_ite (c : Prop) [Decidable c] (x y : Comp σ ε α) (s : σ) (Q : α → σ → Prop) :
    wp (if c then x else y) s Q ↔ (c → wp x s Q) ∧ (¬ c → wp y s Q) := by
  by_cases hc : c <;> simp [hc]

/-- A loop that counts up to `n` establishes `I n` when each iteration takes `I i` to
`I (i + 1)`. -/
theorem wp_forM_range {n : Nat} {f : Nat → Comp σ ε PUnit} {I : Nat → σ → Prop} (h0 : I 0 s)
    (hstep : ∀ i < n, ∀ t, I i t → wp (f i) t fun _ t' => I (i + 1) t') :
    wp ((List.range n).forM f) s fun _ t => I n t := by
  induction n with
  | zero => exact (wp_pure PUnit.unit s _).2 h0
  | succ n ih =>
    rw [range_succ, forM_eq_forM, forM_append, wp_bind]
    refine wp_mono (ih fun i hi => hstep i (Nat.lt_succ_of_lt hi)) ?_
    rintro - t ht
    rw [forM_cons, wp_bind]
    refine wp_mono (hstep n (Nat.lt_succ_self n) t ht) ?_
    rintro - t' ht'
    exact (wp_pure PUnit.unit t' _).2 ht'

/-! ## Partial correctness -/

/-- If the computation returns from `s`, the value and the state it returns satisfy `Q`. -/
def wlp (x : Comp σ ε α) (s : σ) (Q : α → σ → Prop) : Prop :=
  ∀ a s', x s = .ok (a, s') → Q a s'

theorem wlp_of_wp (h : wp x s Q) : wlp x s Q :=
  fun _ _ hx => wp_of_eq_ok h hx

theorem wlp_mono (h : wlp x s Q) (hQR : ∀ a s', Q a s' → R a s') : wlp x s R :=
  fun a s' hx => hQR a s' (h a s' hx)

@[simp] theorem wlp_pure (a : α) (s : σ) (Q : α → σ → Prop) :
    wlp (pure a : Comp σ ε α) s Q ↔ Q a s := by
  constructor
  · intro h
    exact h a s rfl
  · intro hQ b t hb
    cases hb
    exact hQ

@[simp] theorem wlp_bind (x : Comp σ ε α) (f : α → Comp σ ε β) (s : σ) (Q : β → σ → Prop) :
    wlp (x >>= f) s Q ↔ wlp x s (fun a t => wlp (f a) t Q) := by
  have hbind : ∀ a u, x s = .ok (a, u) → (x >>= f) s = f a u := by
    intro a u hx
    simp [bind, StateT.bind, hx, Except.bind]
  constructor
  · intro h a u hx b t hb
    exact h b t ((hbind a u hx).trans hb)
  · intro h b t hb
    cases hx : x s with
    | error e =>
      have herr : (x >>= f) s = .error e := by
        simp [bind, StateT.bind, hx, Except.bind]
      rw [herr] at hb
      cases hb
    | ok p =>
      obtain ⟨a, u⟩ := p
      exact h a u hx b t ((hbind a u hx).symm.trans hb)

@[simp] theorem wlp_map (f : α → β) (x : Comp σ ε α) (s : σ) (Q : β → σ → Prop) :
    wlp (f <$> x) s Q ↔ wlp x s (fun a t => Q (f a) t) := by
  rw [map_eq_pure_bind, wlp_bind]
  simp only [wlp_pure]

@[simp] theorem wlp_get (s : σ) (Q : σ → σ → Prop) :
    wlp (get : Comp σ ε σ) s Q ↔ Q s s :=
  wlp_pure s s Q

@[simp] theorem wlp_modify (f : σ → σ) (s : σ) (Q : Unit → σ → Prop) :
    wlp (modify f : Comp σ ε Unit) s Q ↔ Q () (f s) := by
  constructor
  · intro h
    exact h () (f s) rfl
  · intro hQ b t hb
    cases hb
    exact hQ

@[simp] theorem wlp_set (t s : σ) (Q : Unit → σ → Prop) :
    wlp (set t : Comp σ ε Unit) s Q ↔ Q () t :=
  wlp_modify (fun _ => t) s Q

@[simp] theorem wlp_throw (e : ε) (s : σ) (Q : α → σ → Prop) :
    wlp (throw e : Comp σ ε α) s Q ↔ True := by
  constructor
  · exact fun _ => trivial
  · intro _ b t hb
    cases hb

@[simp] theorem wlp_check (p : Prop) [Decidable p] (e : ε) (s : σ) (Q : Unit → σ → Prop) :
    wlp (check p e : Comp σ ε Unit) s Q ↔ (p → Q () s) := by
  by_cases hp : p
  · simp [check, hp]
  · simp [check, hp]

/-! ## Errors -/

/-- From `s`, the computation returns a value and a state that satisfy `Q`, or stops with an error
that satisfies `E`. -/
def ends (x : Comp σ ε α) (s : σ) (Q : α → σ → Prop) (E : ε → Prop) : Prop :=
  match x s with
  | .ok (a, s') => Q a s'
  | .error e => E e

theorem ends_mono {F : ε → Prop} (h : ends x s Q E) (hQR : ∀ a s', Q a s' → R a s')
    (hEF : ∀ e, E e → F e) : ends x s R F := by
  unfold ends at h ⊢
  cases hx : x s with
  | ok p =>
    rw [hx] at h
    exact hQR _ _ h
  | error e =>
    rw [hx] at h
    exact hEF e h

theorem ends_imp (h : ends x s Q E) (hQR : ∀ a s', Q a s' → R a s') : ends x s R E :=
  ends_mono h hQR fun _ he => he

theorem ends_of_eq_ok {s' : σ} (h : ends x s Q E) (hx : x s = .ok (a, s')) : Q a s' := by
  unfold ends at h
  rw [hx] at h
  exact h

theorem ends_of_eq_error {e : ε} (h : ends x s Q E) (hx : x s = .error e) : E e := by
  unfold ends at h
  rw [hx] at h
  exact h

/-- Without a way to fail, the computation returns. -/
theorem wp_of_ends (h : ends x s Q E) (hE : ∀ e, ¬ E e) : wp x s Q := by
  cases hx : x s with
  | ok p => exact ⟨p.1, p.2, hx, ends_of_eq_ok (a := p.1) h hx⟩
  | error e => exact absurd (ends_of_eq_error h hx) (hE e)

@[simp] theorem ends_pure (a : α) (s : σ) (Q : α → σ → Prop) (E : ε → Prop) :
    ends (pure a : Comp σ ε α) s Q E ↔ Q a s :=
  Iff.rfl

@[simp] theorem ends_bind (x : Comp σ ε α) (f : α → Comp σ ε β) (s : σ) (Q : β → σ → Prop)
    (E : ε → Prop) : ends (x >>= f) s Q E ↔ ends x s (fun a t => ends (f a) t Q E) E := by
  cases hx : x s with
  | ok p =>
    simp [ends, bind, StateT.bind, hx, Except.bind]
  | error e => simp [ends, bind, StateT.bind, hx, Except.bind]

@[simp] theorem ends_get (s : σ) (Q : σ → σ → Prop) (E : ε → Prop) :
    ends (get : Comp σ ε σ) s Q E ↔ Q s s :=
  Iff.rfl

@[simp] theorem ends_modify (f : σ → σ) (s : σ) (Q : Unit → σ → Prop) (E : ε → Prop) :
    ends (modify f : Comp σ ε Unit) s Q E ↔ Q () (f s) :=
  Iff.rfl

@[simp] theorem ends_throw (e : ε) (s : σ) (Q : α → σ → Prop) (E : ε → Prop) :
    ends (throw e : Comp σ ε α) s Q E ↔ E e :=
  Iff.rfl

@[simp] theorem ends_check (p : Prop) [Decidable p] (e : ε) (s : σ) (Q : Unit → σ → Prop)
    (E : ε → Prop) : ends (check p e : Comp σ ε Unit) s Q E ↔ (p → Q () s) ∧ (¬ p → E e) := by
  by_cases hp : p
  · simp [check, hp]
  · simp [check, hp]

theorem ends_ite (c : Prop) [Decidable c] (x y : Comp σ ε α) (s : σ) (Q : α → σ → Prop)
    (E : ε → Prop) :
    ends (if c then x else y) s Q E ↔ (c → ends x s Q E) ∧ (¬ c → ends y s Q E) := by
  by_cases hc : c <;> simp [hc]

/-- Run a computation on a part of the state. -/
def zoom {ρ : Type} (part : σ → ρ) (put : σ → ρ → σ) (x : Comp ρ ε α) : Comp σ ε α := fun s =>
  match x (part s) with
  | .ok (a, r) => .ok (a, put s r)
  | .error e => .error e

theorem ends_zoom {ρ : Type} (part : σ → ρ) (put : σ → ρ → σ) (x : Comp ρ ε α) (s : σ)
    (Q : α → σ → Prop) (E : ε → Prop) :
    ends (zoom part put x) s Q E ↔ ends x (part s) (fun a r => Q a (put s r)) E := by
  unfold ends zoom
  cases x (part s) with
  | ok p => rfl
  | error e => rfl

end Pintos.Lib.StateExcept
