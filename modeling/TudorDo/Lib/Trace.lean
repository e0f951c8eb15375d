import TudorDo.Lib.Run

/-!
# What a run puts out

The steps of a run may put something out (messages sent, events handled); `trace` is all of it, in
order. Two rules are for systems that pass on, in order, what they take in:

* `trace_conserved` — where each step keeps its balance of what is taken in, put out and pending, so
  does a run: nothing is lost, doubled or reordered;
* `trace_drives` — a part of the state that each step changes by what it puts out is changed by a run
  as by its trace alone.

Together they say that what such a part comes to does not depend on the schedule
(`drives_of_drained`).
-/

namespace TudorDo.Lib

variable {σ ε ω τ : Type*} (step : σ → ε → Option σ)

/-- What the steps of `es` put out, up to the first that is not defined. -/
def trace (out : σ → ε → List ω) : σ → List ε → List ω
  | _, [] => []
  | s, e :: es => (step s e).elim [] fun s' => out s e ++ trace out s' es

variable {step} {out inp : σ → ε → List ω} {s s' t : σ} {e : ε} {es : List ε}

@[simp] theorem trace_nil (s : σ) : trace step out s [] = [] := rfl

theorem trace_cons (h : step s e = some s') (es : List ε) :
    trace step out s (e :: es) = out s e ++ trace step out s' es := by
  rw [trace, h, Option.elim_some]

/-- Where what a step puts out is told by its event, so is a trace. -/
theorem trace_eq_flatMap {Inv : σ → Prop} (hstep : ∀ s e s', Inv s → step s e = some s' → Inv s')
    {f : ε → List ω} (hout : ∀ s e, Inv s → out s e = f e) (hs : Inv s)
    (hrun : run step s es = some t) : trace step out s es = es.flatMap f := by
  induction es generalizing s with
  | nil => rfl
  | cons e es ih =>
      obtain ⟨s', hs', hrun⟩ := Option.bind_eq_some_iff.mp hrun
      rw [trace_cons hs', List.flatMap_cons, hout s e hs, ih (hstep s e s' hs hs') hrun]

/-- Where every step passes on what is pending before what it takes in, so does a run. -/
theorem trace_conserved {Inv : σ → Prop} (hstep : ∀ s e s', Inv s → step s e = some s' → Inv s')
    {pending : σ → List ω}
    (hbalance : ∀ s e s', Inv s → step s e = some s' →
      pending s ++ inp s e = out s e ++ pending s')
    (hs : Inv s) (hrun : run step s es = some t) :
    pending s ++ trace step inp s es = trace step out s es ++ pending t := by
  induction es generalizing s with
  | nil =>
      cases hrun
      simp
  | cons e es ih =>
      obtain ⟨s', hs', hrun⟩ := Option.bind_eq_some_iff.mp hrun
      have hrest := ih (hstep s e s' hs hs') hrun
      calc pending s ++ trace step inp s (e :: es)
          = (pending s ++ inp s e) ++ trace step inp s' es := by
            rw [trace_cons hs', List.append_assoc]
        _ = out s e ++ (pending s' ++ trace step inp s' es) := by
            rw [hbalance s e s' hs hs', List.append_assoc]
        _ = trace step out s (e :: es) ++ pending t := by
            rw [hrest, trace_cons hs', List.append_assoc]

/-- A part of the state that every step changes by what it puts out is changed so by a run. -/
theorem trace_drives {Inv : σ → Prop} (hstep : ∀ s e s', Inv s → step s e = some s' → Inv s')
    {part : σ → τ} {act : τ → ω → Option τ}
    (hpart : ∀ s e s', Inv s → step s e = some s' → run act (part s) (out s e) = some (part s'))
    (hs : Inv s) (hrun : run step s es = some t) :
    run act (part s) (trace step out s es) = some (part t) := by
  induction es generalizing s with
  | nil =>
      cases hrun
      rfl
  | cons e es ih =>
      obtain ⟨s', hs', hrun⟩ := Option.bind_eq_some_iff.mp hrun
      rw [trace_cons hs', run_append, hpart s e s' hs hs', Option.bind_some]
      exact ih (hstep s e s' hs hs') hrun

/-- Once nothing is pending, a part driven by what is put out has been driven by what was pending at
the start and taken in on the way. -/
theorem drives_of_drained {Inv : σ → Prop}
    (hstep : ∀ s e s', Inv s → step s e = some s' → Inv s') {pending : σ → List ω}
    (hbalance : ∀ s e s', Inv s → step s e = some s' →
      pending s ++ inp s e = out s e ++ pending s')
    {part : σ → τ} {act : τ → ω → Option τ}
    (hpart : ∀ s e s', Inv s → step s e = some s' → run act (part s) (out s e) = some (part s'))
    (hs : Inv s) (hrun : run step s es = some t) (ht : pending t = []) :
    run act (part s) (pending s ++ trace step inp s es) = some (part t) := by
  have hbalanced := trace_conserved hstep hbalance hs hrun
  rw [ht, List.append_nil] at hbalanced
  rw [hbalanced]
  exact trace_drives hstep hpart hs hrun

end TudorDo.Lib
