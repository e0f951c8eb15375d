import TudorDo.Lib.Run

/-!
# Runs over separate components

A state with a component for every key, and events of which each looks at and changes the component
of its own key only. A run then falls apart into one run for each key, over the events of that key
in their order (`run_iff_components`), and two sequences that give every key the same events come to
the same (`run_eq_of_filter_eq`): neither how they are interleaved nor what goes wrong for another
key makes a difference.
-/

namespace TudorDo.Lib

variable {σ ε κ α : Type*}

/-- `step` acts on the component of the event's key, as `act` does, and on no other. -/
structure Components (step : σ → ε → Option σ) (key : ε → κ) (get : σ → κ → α)
    (act : α → ε → Option α) : Prop where
  /-- a state is its components -/
  ext : ∀ s t, get s = get t → s = t
  /-- a step that is defined does to the component of its key what `act` does -/
  act_eq : ∀ s e t, step s e = some t → act (get s (key e)) e = some (get t (key e))
  /-- it does nothing to the others -/
  frame : ∀ s e t, step s e = some t → ∀ k, k ≠ key e → get t k = get s k
  /-- it is defined where `act` is -/
  isSome : ∀ s e, (act (get s (key e)) e).isSome → (step s e).isSome

namespace Components

variable [DecidableEq κ] {step : σ → ε → Option σ} {key : ε → κ} {get : σ → κ → α}
  {act : α → ε → Option α}

/-- A run leads to `t` exactly when, for every key, the run of its events on its component leads to
the component of `t`. -/
theorem run_iff_components (h : Components step key get act) {s t : σ} {es : List ε} :
    run step s es = some t ↔
      ∀ k, run act (get s k) (es.filter fun e => key e = k) = some (get t k) := by
  induction es generalizing s with
  | nil =>
      simp only [run_nil, List.filter_nil, Option.some.injEq]
      exact ⟨fun hst k => congrFun (congrArg get hst) k, fun hget => h.ext s t (funext hget)⟩
  | cons e es ih =>
      -- after the step the component of its key is what `act` makes of it, the others are as before
      have hrest : ∀ {s'}, step s e = some s' → ∀ k,
          run act (get s k) ((e :: es).filter fun e => key e = k) =
            run act (get s' k) (es.filter fun e => key e = k) := by
        intro s' hs' k
        by_cases hk : key e = k
        · subst hk
          rw [List.filter_cons_of_pos (by simp), run_cons, h.act_eq s e s' hs', Option.bind_some]
        · rw [List.filter_cons_of_neg (by simpa using hk), h.frame s e s' hs' k (Ne.symm hk)]
      cases hstep : step s e with
      | some s' => simp only [run_cons, hstep, Option.bind_some, ih, hrest hstep]
      | none =>
          have hact : act (get s (key e)) e = none := by
            by_contra hne
            have := h.isSome s e (Option.isSome_iff_ne_none.mpr hne)
            simp [hstep] at this
          simp only [run_cons, hstep, Option.bind_none, reduceCtorEq, false_iff]
          intro hrun
          have := hrun (key e)
          rw [List.filter_cons_of_pos (by simp), run_cons, hact] at this
          cases this

/-- Sequences with the same events for every key, in the same order for each, come to the same. -/
theorem run_eq_of_filter_eq (h : Components step key get act) {es fs : List ε}
    (heq : ∀ k, (es.filter fun e => key e = k) = fs.filter fun e => key e = k) (s : σ) :
    run step s es = run step s fs := by
  apply Option.ext
  intro t
  rw [h.run_iff_components, h.run_iff_components]
  simp only [heq]

/-- A run does nothing to the component of a key without events. -/
theorem run_frame (h : Components step key get act) {s t : σ} {es : List ε}
    (hrun : run step s es = some t) {k : κ} (hk : ∀ e ∈ es, key e ≠ k) : get t k = get s k := by
  have hnil : (es.filter fun e => key e = k) = [] :=
    List.filter_eq_nil_iff.mpr fun e he => by simpa using hk e he
  have := h.run_iff_components.mp hrun k
  rw [hnil] at this
  exact (Option.some.inj this).symm

end Components

end TudorDo.Lib
