import Mathlib.Tactic

/-!
# Runs of a step function

A system is given by a step function `step : σ → α → Option σ`: what an action does to a state,
`none` when the action is not possible there. `run` takes a list of actions in order. An invariant
of the possible steps holds along every run (`run_invariant`), and a relation that every step
satisfies, closed under composition, relates both ends of a run (`run_relation`). Both rules take a
condition `P` on the actions, for results about the runs whose actions all meet a condition. The
last section is about logs, which record what happens in a run.
-/

set_option autoImplicit false

namespace Pintos.Lib.Runs

open List

variable {σ α : Type} {step : σ → α → Option σ}

/-- Take the actions of a list in order. -/
def run (step : σ → α → Option σ) : σ → List α → Option σ
  | s, [] => some s
  | s, a :: l => (step s a).bind fun t => run step t l

@[simp] theorem run_nil (s : σ) : run step s [] = some s := rfl

theorem run_cons_iff {s u : σ} {a : α} {l : List α} :
    run step s (a :: l) = some u ↔ ∃ t, step s a = some t ∧ run step t l = some u :=
  Option.bind_eq_some_iff

theorem run_append_iff {s u : σ} {l l' : List α} :
    run step s (l ++ l') = some u ↔ ∃ t, run step s l = some t ∧ run step t l' = some u := by
  induction l generalizing s with
  | nil => simp
  | cons a l ih =>
    rw [cons_append, run_cons_iff]
    constructor
    · rintro ⟨t, hst, htu⟩
      obtain ⟨v, htv, hvu⟩ := ih.1 htu
      exact ⟨v, run_cons_iff.2 ⟨t, hst, htv⟩, hvu⟩
    · rintro ⟨v, hsv, hvu⟩
      obtain ⟨t, hst, htv⟩ := run_cons_iff.1 hsv
      exact ⟨t, hst, ih.2 ⟨v, htv, hvu⟩⟩

/-- A run that has been evaluated, with what is computed of its end and what follows from that. -/
theorem exists_end {o : Option σ} {p q : σ → Prop} [DecidablePred p]
    (h : o.any (fun s => p s) = true) (hq : ∀ s, o = some s → p s → q s) :
    ∃ s, o = some s ∧ q s := by
  obtain ⟨s, hs, hp⟩ := (Option.any_eq_true _ _).1 h
  exact ⟨s, hs, hq s hs (of_decide_eq_true hp)⟩

/-- What every step preserves, every run preserves. -/
theorem run_invariant {P : α → Prop} {I : σ → Prop}
    (hstep : ∀ s a t, P a → I s → step s a = some t → I t) {s u : σ} {l : List α}
    (hP : ∀ a ∈ l, P a) (hs : I s) (h : run step s l = some u) : I u := by
  induction l generalizing s with
  | nil =>
    cases h
    exact hs
  | cons a l ih =>
    obtain ⟨t, hst, htu⟩ := run_cons_iff.1 h
    have ht : I t := hstep s a t (hP a mem_cons_self) hs hst
    exact ih (fun b hb => hP b (mem_cons_of_mem a hb)) ht htu

/-- The same for runs whose steps all meet a condition on the action and the state it is taken
in. -/
theorem run_invariant_guarded {G : σ → α → Prop} {I : σ → Prop}
    (hstep : ∀ s a t, G s a → I s → step s a = some t → I t) {s u : σ} {l : List α}
    (hG : ∀ n t a, run step s (l.take n) = some t → l[n]? = some a → G t a) (hs : I s)
    (h : run step s l = some u) : I u := by
  induction l generalizing s with
  | nil =>
    cases h
    exact hs
  | cons a l ih =>
    obtain ⟨t, hst, htu⟩ := run_cons_iff.1 h
    refine ih (fun n v b hv hb => ?_) (hstep s a t (hG 0 s a rfl rfl) hs hst) htu
    exact hG (n + 1) v b (run_cons_iff.2 ⟨t, hst, hv⟩) hb

/-- A composable relation between the states before and after each step relates the ends of every
run, given an invariant. -/
theorem run_relation {P : α → Prop} {I : σ → Prop} {R : σ → σ → Prop} (hrefl : ∀ s, R s s)
    (htrans : ∀ s t u, R s t → R t u → R s u)
    (hstep : ∀ s a t, P a → I s → step s a = some t → I t ∧ R s t) {s u : σ} {l : List α}
    (hP : ∀ a ∈ l, P a) (hs : I s) (h : run step s l = some u) : R s u := by
  induction l generalizing s with
  | nil =>
    cases h
    exact hrefl _
  | cons a l ih =>
    obtain ⟨t, hst, htu⟩ := run_cons_iff.1 h
    obtain ⟨ht, hR⟩ := hstep s a t (hP a mem_cons_self) hs hst
    exact htrans s t u hR (ih (fun b hb => hP b (mem_cons_of_mem a hb)) ht htu)

/-! ## Logs

A log is a list of events to which the steps append. -/

/-- Where an event stands in a log after the events `es` are appended, none of which it is. -/
theorem append_split {ε : Type} {log es l₁ l₂ : List ε} {x : ε} (hx : x ∉ es)
    (h : log ++ es = l₁ ++ x :: l₂) : ∃ l₃, l₂ = l₃ ++ es ∧ log = l₁ ++ x :: l₃ := by
  rcases append_eq_append_iff.1 h with ⟨m, rfl, hes⟩ | ⟨m, rfl, hm⟩
  · exact absurd (by rw [hes]; exact mem_append_right m mem_cons_self) hx
  · cases m with
    | nil => exact absurd (by rw [← nil_append es, ← hm]; exact mem_cons_self) hx
    | cons y m =>
      rw [cons_append, List.cons.injEq] at hm
      exact ⟨m, hm.2, by rw [hm.1]⟩

/-- Where an event stands in a log with one more event. -/
theorem append_singleton_cases {ε : Type} {log l₁ l₂ : List ε} {e x : ε}
    (h : log ++ [e] = l₁ ++ x :: l₂) :
    l₂ = [] ∧ log = l₁ ∧ e = x ∨ ∃ l₃, l₂ = l₃ ++ [e] ∧ log = l₁ ++ x :: l₃ := by
  rcases eq_nil_or_concat l₂ with hl | ⟨l₃, y, hl⟩
  · subst hl
    obtain ⟨hlog, he⟩ := append_inj' h rfl
    cases he
    exact Or.inl ⟨rfl, hlog, rfl⟩
  · rw [concat_eq_append] at hl
    subst hl
    rw [← cons_append, ← append_assoc] at h
    obtain ⟨hlog, he⟩ := append_inj' h rfl
    cases he
    exact Or.inr ⟨l₃, rfl, hlog⟩

end Pintos.Lib.Runs
