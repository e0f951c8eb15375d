import Mathlib.Data.List.Infix

/-!
# Runs of a partial step function

A program that takes one event after another is a function `step : σ → ε → Option σ`, with `none`
where the step is not defined (it is not enabled, or the program has no behaviour there). A *run*
takes the steps of a list of events in order.

Two things are said about whole runs:

* `Throughout` — every state the run reaches, the first included, is good;
* `EachStep` — every step of the run, seen from the state it starts in, meets a condition.

`throughout_iff_eachStep` turns an exact condition on one step into an exact condition on runs,
`run_invariant` is the usual induction rule, and `eachStep_good_or_bad` is for damage that lasts: what
is found at the end tells what happened on the way. Nothing here knows what the program is.
-/

namespace TudorDo.Lib

variable {σ ε : Type*} (step : σ → ε → Option σ)

/-- Take the steps of `es` in order. -/
def run : σ → List ε → Option σ
  | s, [] => some s
  | s, e :: es => (step s e).bind fun s' => run s' es

@[simp] theorem run_nil (s : σ) : run step s [] = some s := rfl

@[simp] theorem run_cons (s : σ) (e : ε) (es : List ε) :
    run step s (e :: es) = (step s e).bind fun s' => run step s' es := rfl

theorem run_append (s : σ) (es fs : List ε) :
    run step s (es ++ fs) = (run step s es).bind fun s' => run step s' fs := by
  induction es generalizing s with
  | nil => rfl
  | cons e es ih =>
      cases h : step s e with
      | none => simp [h]
      | some s' => simpa [h] using ih s'

/-- Every state reached by the run of `es`, after none, some or all of its events, is `Good`; in
particular no step of the run is undefined. -/
def Throughout (Good : σ → Prop) (s : σ) (es : List ε) : Prop :=
  ∀ pre, pre <+: es → ∃ s', run step s pre = some s' ∧ Good s'

/-- Every step the run of `es` comes to meets `P`, seen from the state it is taken in. -/
def EachStep (P : σ → ε → Prop) (s : σ) (es : List ε) : Prop :=
  ∀ pre e, pre ++ [e] <+: es → ∀ s', run step s pre = some s' → P s' e

variable {step}

theorem throughout_nil {Good : σ → Prop} {s : σ} : Throughout step Good s [] ↔ Good s := by
  constructor
  · intro h
    obtain ⟨s', hs', hgood⟩ := h [] List.prefix_rfl
    cases hs'
    exact hgood
  · intro h pre hpre
    rw [List.prefix_nil.mp hpre]
    exact ⟨s, rfl, h⟩

theorem throughout_cons {Good : σ → Prop} {s : σ} {e : ε} {es : List ε} :
    Throughout step Good s (e :: es) ↔
      Good s ∧ ∃ s', step s e = some s' ∧ Throughout step Good s' es := by
  constructor
  · intro h
    obtain ⟨s₀, hs₀, hgood⟩ := h [] List.nil_prefix
    cases hs₀
    obtain ⟨s', hs', -⟩ := h [e] (by simp)
    have hstep : step s e = some s' := by simpa using hs'
    refine ⟨hgood, s', hstep, fun pre hpre => ?_⟩
    obtain ⟨s'', hs'', hgood''⟩ := h (e :: pre) (List.prefix_cons_inj e |>.mpr hpre)
    exact ⟨s'', by simpa [hstep] using hs'', hgood''⟩
  · rintro ⟨hgood, s', hstep, h⟩ pre hpre
    cases pre with
    | nil => exact ⟨s, rfl, hgood⟩
    | cons e' pre =>
        obtain ⟨rfl, hpre'⟩ := List.cons_prefix_cons.mp hpre
        obtain ⟨s'', hs'', hgood''⟩ := h pre hpre'
        exact ⟨s'', by simpa [hstep] using hs'', hgood''⟩

@[simp] theorem eachStep_nil {P : σ → ε → Prop} {s : σ} : EachStep step P s [] := by
  intro pre e hpre
  simp at hpre

theorem eachStep_cons {P : σ → ε → Prop} {s : σ} {e : ε} {es : List ε} :
    EachStep step P s (e :: es) ↔
      P s e ∧ ∀ s', step s e = some s' → EachStep step P s' es := by
  constructor
  · intro h
    refine ⟨h [] e (by simp) s rfl, fun s' hstep pre e' hpre s'' hs'' => ?_⟩
    exact h (e :: pre) e' (by simpa using hpre) s'' (by simpa [hstep] using hs'')
  · rintro ⟨hP, h⟩ pre e' hpre s'' hs''
    cases pre with
    | nil =>
        have he : e' = e := by simpa using hpre
        cases hs''
        exact he ▸ hP
    | cons e₀ pre =>
        obtain ⟨rfl, hpre'⟩ := List.cons_prefix_cons.mp hpre
        cases hstep : step s e₀ with
        | none => simp [hstep] at hs''
        | some s' => exact h s' hstep pre e' hpre' s'' (by simpa [hstep] using hs'')

theorem eachStep_append {P : σ → ε → Prop} {s : σ} {es fs : List ε} :
    EachStep step P s (es ++ fs) ↔
      EachStep step P s es ∧ ∀ s', run step s es = some s' → EachStep step P s' fs := by
  induction es generalizing s with
  | nil => simp
  | cons e es ih =>
      simp only [List.cons_append, eachStep_cons, ih, run_cons, Option.bind_eq_some_iff]
      constructor
      · rintro ⟨he, h⟩
        exact ⟨⟨he, fun s' hs' => (h s' hs').1⟩, fun t ⟨s', hs', ht⟩ => (h s' hs').2 t ht⟩
      · rintro ⟨⟨he, h⟩, h'⟩
        exact ⟨he, fun s' hs' => ⟨h s' hs', fun t ht => h' t ⟨s', hs', ht⟩⟩⟩

/-- An exact condition for one step is an exact condition for runs: where `P` says of every good
state when the next step is defined and leads to a good state, the run stays good throughout
exactly when each of its steps meets `P`. -/
theorem throughout_iff_eachStep {Good : σ → Prop} {P : σ → ε → Prop}
    (hstep : ∀ s e, Good s → ((∃ s', step s e = some s' ∧ Good s') ↔ P s e))
    {s : σ} (hs : Good s) (es : List ε) :
    Throughout step Good s es ↔ EachStep step P s es := by
  induction es generalizing s with
  | nil => exact ⟨fun _ => eachStep_nil, fun _ => throughout_nil.mpr hs⟩
  | cons e es ih =>
      rw [throughout_cons, eachStep_cons, ← hstep s e hs]
      constructor
      · rintro ⟨-, s', he, h⟩
        have hgood : Good s' := (h [] List.nil_prefix).elim fun s'' ⟨h₁, h₂⟩ => by
          cases h₁
          exact h₂
        -- the step leads to one state only, and the rest of the run starts there
        refine ⟨⟨s', he, hgood⟩, fun s'' he' => ?_⟩
        obtain rfl : s' = s'' := Option.some.inj (he.symm.trans he')
        exact (ih hgood).mp h
      · rintro ⟨⟨s', he, hgood⟩, h⟩
        exact ⟨hs, s', he, (ih hgood).mpr (h s' he)⟩

/-- Where steps between good states keep `Inv`, a run that is good throughout has it throughout. -/
theorem throughout_and_iff {Good Inv : σ → Prop}
    (hinv : ∀ s e s', Good s → Inv s → step s e = some s' → Good s' → Inv s') {s : σ} (hs : Inv s)
    (es : List ε) :
    Throughout step (fun s => Good s ∧ Inv s) s es ↔ Throughout step Good s es := by
  constructor
  · intro h pre hpre
    obtain ⟨s', hs', hgood, -⟩ := h pre hpre
    exact ⟨s', hs', hgood⟩
  · intro h
    induction es generalizing s with
    | nil => exact throughout_nil.mpr ⟨throughout_nil.mp h, hs⟩
    | cons e es ih =>
        obtain ⟨hgood, s', he, h⟩ := throughout_cons.mp h
        obtain ⟨s'', hs'', hgood'⟩ := h [] List.nil_prefix
        cases hs''
        exact throughout_cons.mpr ⟨⟨hgood, hs⟩, s', he, ih (hinv s e s' hgood hs he hgood') h⟩

/-- `throughout_iff_eachStep` where the condition is exact in the states that have `Inv`. -/
theorem throughout_iff_eachStep_of_invariant {Good Inv : σ → Prop} {P : σ → ε → Prop}
    (hstep : ∀ s e, Good s → Inv s → ((∃ s', step s e = some s' ∧ Good s') ↔ P s e))
    (hinv : ∀ s e s', Good s → Inv s → P s e → step s e = some s' → Inv s') {s : σ} (hs : Good s)
    (hs' : Inv s) (es : List ε) : Throughout step Good s es ↔ EachStep step P s es := by
  rw [← throughout_and_iff (fun s e s' hgood hs he hgood' =>
    hinv s e s' hgood hs ((hstep s e hgood hs).mp ⟨s', he, hgood'⟩) he) hs' es]
  refine throughout_iff_eachStep (fun s e h => ?_) ⟨hs, hs'⟩ es
  rw [← hstep s e h.1 h.2]
  constructor
  · rintro ⟨s', he, hgood, -⟩
    exact ⟨s', he, hgood⟩
  · rintro ⟨s', he, hgood⟩
    exact ⟨s', he, hgood, hinv s e s' h.1 h.2 ((hstep s e h.1 h.2).mp ⟨s', he, hgood⟩) he⟩

/-- What holds at the start and is kept by every step of an allowed event holds wherever a run of
allowed events leads. -/
theorem run_invariant {A : ε → Prop} {Inv : σ → Prop}
    (hstep : ∀ s e s', A e → Inv s → step s e = some s' → Inv s') {s : σ} (hs : Inv s)
    {es : List ε} (hes : ∀ e ∈ es, A e) {t : σ} (ht : run step s es = some t) : Inv t := by
  induction es generalizing s with
  | nil =>
      cases ht
      exact hs
  | cons e es ih =>
      obtain ⟨he, hrest⟩ := List.forall_mem_cons.mp hes
      obtain ⟨s', hs', ht'⟩ := Option.bind_eq_some_iff.mp ht
      exact ih (hstep s e s' he hs hs') hrest ht'

/-- What every step keeps, a run keeps. -/
theorem run_keeps {Inv : σ → Prop} (hstep : ∀ s e s', Inv s → step s e = some s' → Inv s') {s t : σ}
    (hs : Inv s) {es : List ε} (ht : run step s es = some t) : Inv t :=
  run_invariant (A := fun _ => True) (fun s e s' _ => hstep s e s') hs (fun _ _ => trivial) ht

/-- Every event of a run is taken in some state. -/
theorem exists_run_of_mem {s t : σ} {es : List ε} (ht : run step s es = some t) {e : ε}
    (he : e ∈ es) : ∃ pre s', pre ++ [e] <+: es ∧ run step s pre = some s' := by
  obtain ⟨pre, post, rfl⟩ := List.append_of_mem he
  rw [run_append] at ht
  obtain ⟨s', hs', -⟩ := Option.bind_eq_some_iff.mp ht
  exact ⟨pre, s', by simp, hs'⟩

/-- Where a step that fails `P` breaks a good state and nothing mends a broken one, the end of a run
tells whether each of its steps met `P`. -/
theorem eachStep_good_or_bad (A : ε → Prop) (Good Bad : σ → Prop) (P : σ → ε → Prop)
    (hgood : ∀ s e s', A e → Good s → P s e → step s e = some s' → Good s')
    (hbad : ∀ s e s', A e → Good s → ¬ P s e → step s e = some s' → Bad s')
    (hstay : ∀ s e s', A e → Bad s → step s e = some s' → Bad s') {s : σ} (hs : Good s)
    {es : List ε} (hes : ∀ e ∈ es, A e) {t : σ} (ht : run step s es = some t) :
    EachStep step P s es ∧ Good t ∨ ¬ EachStep step P s es ∧ Bad t := by
  induction es generalizing s with
  | nil =>
      cases ht
      exact .inl ⟨eachStep_nil, hs⟩
  | cons e es ih =>
      obtain ⟨he, hrest⟩ := List.forall_mem_cons.mp hes
      obtain ⟨s', hs', ht'⟩ := Option.bind_eq_some_iff.mp ht
      rw [eachStep_cons]
      by_cases hP : P s e
      · rcases ih (hgood s e s' he hs hP hs') hrest ht' with ⟨heach, ht⟩ | ⟨heach, ht⟩
        · refine .inl ⟨⟨hP, fun s'' hs'' => ?_⟩, ht⟩
          obtain rfl : s' = s'' := Option.some.inj (hs'.symm.trans hs'')
          exact heach
        · exact .inr ⟨fun h => heach (h.2 s' hs'), ht⟩
      · -- broken here, and no later step mends it
        exact .inr ⟨fun h => hP h.1, run_invariant hstay (hbad s e s' he hs hP hs') hrest ht'⟩

/-- A run reaches its end exactly if each step it comes to is defined. -/
theorem exists_run_iff {s : σ} {es : List ε} :
    (∃ t, run step s es = some t) ↔ EachStep step (fun s e => ∃ s', step s e = some s') s es := by
  induction es generalizing s with
  | nil => exact iff_of_true ⟨s, rfl⟩ eachStep_nil
  | cons e es ih =>
      rw [eachStep_cons]
      constructor
      · rintro ⟨t, ht⟩
        obtain ⟨s', he, ht⟩ := Option.bind_eq_some_iff.mp ht
        refine ⟨⟨s', he⟩, fun s'' he' => ?_⟩
        obtain rfl : s' = s'' := Option.some.inj (he.symm.trans he')
        exact ih.mp ⟨t, ht⟩
      · rintro ⟨⟨s', he⟩, h⟩
        obtain ⟨t, ht⟩ := ih.mpr (h s' he)
        exact ⟨t, by simpa [he] using ht⟩

/-- Where the condition on a step makes it defined, a run all of whose steps meet it reaches its
end. -/
theorem EachStep.exists_run {P : σ → ε → Prop} (hstep : ∀ s e, P s e → ∃ s', step s e = some s')
    {s : σ} {es : List ε} (hes : EachStep step P s es) : ∃ t, run step s es = some t := by
  induction es generalizing s with
  | nil => exact ⟨s, rfl⟩
  | cons e es ih =>
      obtain ⟨hP, hrest⟩ := eachStep_cons.mp hes
      obtain ⟨s', he⟩ := hstep s e hP
      obtain ⟨t, ht⟩ := ih (hrest s' he)
      exact ⟨t, by simpa [he] using ht⟩

/-- What holds at the start and is kept by every step that meets the condition holds at the end. -/
theorem EachStep.invariant {P : σ → ε → Prop} {Inv : σ → Prop}
    (hstep : ∀ s e s', P s e → Inv s → step s e = some s' → Inv s') {s t : σ} (hs : Inv s)
    {es : List ε} (hes : EachStep step P s es) (ht : run step s es = some t) : Inv t := by
  induction es generalizing s with
  | nil =>
      cases ht
      exact hs
  | cons e es ih =>
      obtain ⟨hP, hrest⟩ := eachStep_cons.mp hes
      obtain ⟨s', he, ht'⟩ := Option.bind_eq_some_iff.mp ht
      exact ih (hstep s e s' hP hs he) (hrest s' he) ht'

/-- A condition on the events alone, of which each step tells, holds of all of them. -/
theorem EachStep.forall_mem {P : σ → ε → Prop} {Q : ε → Prop} (hPQ : ∀ s e, P s e → Q e)
    (hstep : ∀ s e, P s e → ∃ s', step s e = some s') {s : σ} {es : List ε}
    (hes : EachStep step P s es) : ∀ e ∈ es, Q e := by
  induction es generalizing s with
  | nil => simp
  | cons e es ih =>
      obtain ⟨hP, hrest⟩ := eachStep_cons.mp hes
      obtain ⟨s', he⟩ := hstep s e hP
      exact List.forall_mem_cons.mpr ⟨hPQ s e hP, ih (hrest s' he)⟩

/-- Every step of a run is taken in a state that has what every allowed step keeps. -/
theorem eachStep_congr_of_invariant {A : ε → Prop} {Inv : σ → Prop}
    (hstep : ∀ s e s', A e → Inv s → step s e = some s' → Inv s') {P Q : σ → ε → Prop}
    (hPQ : ∀ s e, A e → Inv s → (P s e ↔ Q s e)) {s : σ} (hs : Inv s) {es : List ε}
    (hes : ∀ e ∈ es, A e) : EachStep step P s es ↔ EachStep step Q s es := by
  have hinv : ∀ pre e, pre ++ [e] <+: es → ∀ s', run step s pre = some s' → A e ∧ Inv s' := by
    intro pre e hpre s' hs'
    have hsub : ∀ x ∈ pre ++ [e], A x := fun x hx => hes x (hpre.subset hx)
    exact ⟨hsub e (by simp), run_invariant hstep hs (fun x hx => hsub x (by simp [hx])) hs'⟩
  constructor
  · intro h pre e hpre s' hs'
    obtain ⟨he, hs⟩ := hinv pre e hpre s' hs'
    exact (hPQ s' e he hs).mp (h pre e hpre s' hs')
  · intro h pre e hpre s' hs'
    obtain ⟨he, hs⟩ := hinv pre e hpre s' hs'
    exact (hPQ s' e he hs).mpr (h pre e hpre s' hs')

theorem EachStep.congr {P Q : σ → ε → Prop} (hPQ : ∀ s e, P s e ↔ Q s e) {s : σ} {es : List ε} :
    EachStep step P s es ↔ EachStep step Q s es :=
  ⟨fun h pre e hpre s' hs' => (hPQ s' e).mp (h pre e hpre s' hs'),
    fun h pre e hpre s' hs' => (hPQ s' e).mpr (h pre e hpre s' hs')⟩

end TudorDo.Lib
