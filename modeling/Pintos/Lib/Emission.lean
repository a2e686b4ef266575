import Pintos.Lib.StateExcept

/-!
# Code that writes through a callback

A writer is code that hands values to a callback, one at a time; what the callback does with them,
and on which state, is open. `Emits x text r` says that `x` hands exactly the values `text` to its
callback, whichever it is, and then ends with `r`. Two writers in sequence emit the two texts one
after the other. A writer that emits a text is the loop over that text for every callback, and the
text can be computed with the callback that collects what it is given.
-/

set_option autoImplicit false

namespace Pintos.Lib.Emission

open StateExcept List

variable {γ ε : Type} {α β : Type}

/-- Code that hands values of type `γ` to a callback. -/
abbrev Writer (γ ε α : Type) : Type 1 := ∀ σ : Type, (γ → Comp σ ε Unit) → Comp σ ε α

/-- Return, or stop with an error. -/
def finish {σ : Type} : Except ε α → Comp σ ε α
  | .ok a => pure a
  | .error e => throw e

/-- The writer hands the values of `text` to its callback and ends with `r`. -/
def Emits (x : Writer γ ε α) (text : List γ) (r : Except ε α) : Prop :=
  ∀ σ output, x σ output = (text.forM output >>= fun _ => finish r)

variable {x : Writer γ ε α} {text text' : List γ} {r : Except ε β} {a : α}

theorem emits_pure (a : α) : Emits (γ := γ) (ε := ε) (fun _ _ => pure a) [] (.ok a) :=
  fun _ _ => rfl

theorem emits_throw (e : ε) : Emits (γ := γ) (α := α) (fun _ _ => throw e) [] (.error e) :=
  fun _ _ => rfl

theorem emits_output (c : γ) : Emits (ε := ε) (fun _ output => output c) [c] (.ok ()) := by
  intro σ output
  change output c = (([c] : List γ).forM output >>= fun _ => pure ())
  simp [forM_eq_forM]

theorem emits_forM (text : List γ) :
    Emits (ε := ε) (fun _ output => text.forM output) text (.ok ()) :=
  fun _ _ => bind_pure_unit.symm

theorem emits_forM_map {ι : Type} (f : ι → γ) (l : List ι) :
    Emits (ε := ε) (fun _ output => l.forM fun i => output (f i)) (l.map f) (.ok ()) := by
  intro σ output
  dsimp only
  rw [forM_eq_forM, forM_eq_forM, forM_map]
  exact bind_pure_unit.symm

/-- Writers in sequence. -/
theorem Emits.bind {f : α → Writer γ ε β} (hx : Emits x text (.ok a)) (hf : Emits (f a) text' r) :
    Emits (fun σ output => x σ output >>= fun b => f b σ output) (text ++ text') r := by
  intro σ output
  dsimp only
  rw [hx σ output, forM_eq_forM, forM_append, bind_assoc, bind_assoc]
  refine bind_congr fun _ => ?_
  change (pure a >>= fun b => f b σ output) = _
  rw [pure_bind, hf σ output]
  rfl

/-- What is emitted before a writer that goes on alone. -/
theorem Emits.cons {y : Writer γ ε β} {c : γ} (hy : Emits y text r) :
    Emits (fun σ output => output c >>= fun _ => y σ output) (c :: text) r :=
  (emits_output c).bind (f := fun _ => y) hy

/-- For every callback, the writer is the loop over its text. -/
theorem Emits.eq_forM {x : Writer γ ε Unit} (h : Emits x text (.ok ())) {σ : Type}
    (output : γ → Comp σ ε Unit) : x σ output = text.forM output := by
  rw [h σ output]
  exact bind_pure_unit

/-- A loop over a text: what holds of the part that has been handed over goes on to hold. -/
theorem forM_invariant {σ : Type} {output : γ → Comp σ ε Unit} {text : List γ}
    (Inv : List γ → σ → Prop) {s : σ} (start : Inv [] s)
    (step : ∀ done c rest s, done ++ c :: rest = text → Inv done s →
      ∃ s', output c s = .ok ((), s') ∧ Inv (done ++ [c]) s') :
    ∃ s', text.forM output s = .ok ((), s') ∧ Inv text s' := by
  -- the text is the part that is done and the part that is left; the induction is on the second
  suffices hrun : ∀ rest done s, done ++ rest = text → Inv done s →
      ∃ s', rest.forM output s = .ok ((), s') ∧ Inv text s' from hrun text [] s rfl start
  intro rest
  induction rest with
  | nil =>
    intro done s hsplit hinv
    rw [append_nil] at hsplit
    exact ⟨s, rfl, hsplit ▸ hinv⟩
  | cons c rest ih =>
    intro done s hsplit hinv
    obtain ⟨s', hout, hinv'⟩ := step done c rest s hsplit hinv
    obtain ⟨s'', hrest, hfinal⟩ := ih (done ++ [c]) s' (by rw [append_assoc]; exact hsplit) hinv'
    refine ⟨s'', ?_, hfinal⟩
    change (output c s >>= fun p => rest.forM output p.2) = _
    rw [hout]
    exact hrest

/-- The callback that collects what it is given. -/
def collect (c : γ) : Comp (List γ) ε Unit := modify fun l => l ++ [c]

theorem forM_collect (text l : List γ) :
    text.forM (collect (ε := ε)) l = .ok ((), l ++ text) := by
  induction text generalizing l with
  | nil => rw [append_nil]; rfl
  | cons c text ih =>
    change text.forM collect (l ++ [c]) = _
    rw [ih, append_assoc]
    rfl

/-- The text of a writer is what is collected. -/
theorem Emits.collect {x : Writer γ ε Unit} (h : Emits x text (.ok ())) :
    x (List γ) Emission.collect [] = .ok ((), text) := by
  rw [h.eq_forM, forM_collect, nil_append]

/-- A writer that stops does not collect a text. -/
theorem Emits.collect_error {x : Writer γ ε Unit} {e : ε} (h : Emits x text (.error e)) :
    x (List γ) Emission.collect [] = .error e := by
  rw [h]
  change (text.forM Emission.collect [] >>= fun p => (throw e : Comp (List γ) ε Unit) p.2) = _
  rw [forM_collect]
  rfl

end Pintos.Lib.Emission
