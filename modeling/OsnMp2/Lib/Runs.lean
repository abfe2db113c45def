import Mathlib.Data.Option.Basic

/-!
# Runs of a labelled transition system

Finite runs of a system whose steps carry events, and the induction rules for them: what the first
state has and every step preserves, every state of a run has. The rules come with a condition on the
steps, for properties that hold along the runs all of whose steps meet the condition.

## Main definitions

* `Run step s es s'`: a run from `s` to `s'` with the events `es`
* `Run.Meets`: all steps of the run meet a condition on the event and the state before it
* `Run.Recorded`, `Run.Observed`: a run with what is recorded of its steps
* `Run.after`: the state after a list of events, computed

## Main results

* `Run.invariant`: what every step preserves holds at the end of a run
* `Run.invariant_of_meets`: the same along runs whose steps meet a condition
* `Run.Recorded.invariant`: the invariant rule with the record so far
* `Run.meets_of_after`: what is computed is a run
-/

universe u v w

variable {S : Type u} {E : Type v} {O : Type w}

/-- A run of the transition system `step` from `s` to `s'` with the events `es`. -/
inductive Run (step : S → E → S → Prop) : S → List E → S → Prop
  | nil (s : S) : Run step s [] s
  | snoc {s s' s'' : S} {es : List E} {e : E} (run : Run step s es s') (last : step s' e s'') :
      Run step s (es ++ [e]) s''

namespace Run

variable {step : S → E → S → Prop}

/-- A run with a condition that each of its steps meets: on the state before the step and its
event. -/
inductive Meets (step : S → E → S → Prop) (C : S → E → Prop) : S → List E → S → Prop
  | nil (s : S) : Meets step C s [] s
  | snoc {s s' s'' : S} {es : List E} {e : E} (run : Meets step C s es s') (cond : C s' e)
      (last : step s' e s'') : Meets step C s (es ++ [e]) s''

theorem Meets.run {C : S → E → Prop} {s s' : S} {es : List E} (h : Meets step C s es s') :
    Run step s es s' := by
  induction h with
  | nil => exact .nil _
  | snoc _ _ last ih => exact .snoc ih last

/-- A run meets the condition that says nothing. -/
theorem meets {s s' : S} {es : List E} (h : Run step s es s') :
    Meets step (fun _ _ => True) s es s' := by
  induction h with
  | nil => exact .nil _
  | snoc _ last ih => exact .snoc ih trivial last

/-- A run of steps that meet a condition, as a run of other steps with another condition. -/
theorem Meets.imp {step' : S → E → S → Prop} {C C' : S → E → Prop}
    (hstep : ∀ s e s', C s e → step s e s' → step' s e s') (hC : ∀ s e, C s e → C' s e) {s s' : S}
    {es : List E} (h : Meets step C s es s') : Meets step' C' s es s' := by
  induction h with
  | nil => exact .nil _
  | snoc _ cond last ih => exact .snoc ih (hC _ _ cond) (hstep _ _ _ cond last)

/-- A run after a run. -/
theorem append {s s' s'' : S} {es es' : List E} (h : Run step s es s') (h' : Run step s' es' s'') :
    Run step s (es ++ es') s'' := by
  induction h' with
  | nil => rwa [List.append_nil]
  | snoc _ last ih =>
    rw [← List.append_assoc]
    exact .snoc ih last

/-- The image of a run, under a map that takes steps to steps. -/
theorem map {S' : Type u} {step' : S' → E → S' → Prop} (f : S → S')
    (hstep : ∀ s e s', step s e s' → step' (f s) e (f s')) {s s' : S} {es : List E}
    (h : Run step s es s') : Run step' (f s) es (f s') := by
  induction h with
  | nil => exact .nil _
  | snoc _ last ih => exact .snoc ih (hstep _ _ _ last)

/-- **The invariant rule.** -/
theorem invariant {I : S → Prop} (hstep : ∀ s e s', I s → step s e s' → I s') {s s' : S}
    {es : List E} (h : Run step s es s') (hs : I s) : I s' := by
  induction h with
  | nil => exact hs
  | snoc _ last ih => exact hstep _ _ _ ih last

/-- **The invariant rule under a condition** on the steps. -/
theorem invariant_of_meets {C : S → E → Prop} {I : S → Prop}
    (hstep : ∀ s e s', I s → C s e → step s e s' → I s') {s s' : S} {es : List E}
    (h : Meets step C s es s') (hs : I s) : I s' := by
  induction h with
  | nil => exact hs
  | snoc _ cond last ih => exact hstep _ _ _ ih cond last

/-! ## Records -/

/-- A run with what is recorded at its steps, in order: of each step, `record` of its event and the
states before and after it. -/
inductive Recorded (step : S → E → S → Prop) (record : S → E → S → List O) : S → List O → S → Prop
  | nil (s : S) : Recorded step record s [] s
  | snoc {s s' s'' : S} {os : List O} {e : E} (run : Recorded step record s os s')
      (last : step s' e s'') : Recorded step record s (os ++ record s' e s'') s''

/-- A run with what is observed at its steps: each step shows `obs` of the states before and after
it. -/
abbrev Observed (step : S → E → S → Prop) (obs : S → S → List O) : S → List O → S → Prop :=
  Recorded step fun s _ s' => obs s s'

theorem Recorded.run {record : S → E → S → List O} {s s' : S} {os : List O}
    (h : Recorded step record s os s') : ∃ es, Run step s es s' := by
  induction h with
  | nil => exact ⟨[], .nil _⟩
  | snoc _ last ih =>
    obtain ⟨es, hes⟩ := ih
    exact ⟨_, .snoc hes last⟩

/-- A run whose steps meet a condition can be recorded. -/
theorem Meets.recorded {C : S → E → Prop} (record : S → E → S → List O) {s s' : S} {es : List E}
    (h : Meets step C s es s') :
    ∃ os, Recorded (fun s e s' => C s e ∧ step s e s') record s os s' := by
  induction h with
  | nil => exact ⟨[], .nil _⟩
  | snoc _ cond last ih =>
    obtain ⟨os, hos⟩ := ih
    exact ⟨_, .snoc hos ⟨cond, last⟩⟩

/-- What is recorded along a run of some of the steps is recorded along a run. -/
theorem Recorded.mono {step' : S → E → S → Prop} {record : S → E → S → List O}
    (hstep : ∀ s e s', step s e s' → step' s e s') {s s' : S} {os : List O}
    (h : Recorded step record s os s') : Recorded step' record s os s' := by
  induction h with
  | nil => exact .nil _
  | snoc _ last ih => exact .snoc ih (hstep _ _ _ last)

/-- Every run can be recorded. -/
theorem recorded (record : S → E → S → List O) {s s' : S} {es : List E} (h : Run step s es s') :
    ∃ os, Recorded step record s os s' := by
  obtain ⟨os, hos⟩ := h.meets.recorded record
  exact ⟨os, hos.mono fun _ _ _ hs => hs.2⟩

/-- Every run can be observed. -/
theorem observed (obs : S → S → List O) {s s' : S} {es : List E} (h : Run step s es s') :
    ∃ os, Observed step obs s os s' :=
  h.recorded fun s _ s' => obs s s'

/-- A run whose steps meet a condition can be observed. -/
theorem Meets.observed {C : S → E → Prop} (obs : S → S → List O) {s s' : S} {es : List E}
    (h : Meets step C s es s') : ∃ os, Observed (fun s e s' => C s e ∧ step s e s') obs s os s' :=
  h.recorded fun s _ s' => obs s s'

/-- **The invariant rule with the record so far.** -/
theorem Recorded.invariant {record : S → E → S → List O} {I : S → List O → Prop}
    (hstep : ∀ s e s' os, I s os → step s e s' → I s' (os ++ record s e s')) {s s' : S}
    {os : List O} (h : Recorded step record s os s') (hs : I s []) : I s' os := by
  induction h with
  | nil => exact hs
  | snoc _ last ih => exact hstep _ _ _ _ ih last

/-! ## Computing runs -/

/-- The state after a list of events, when each of them can happen. -/
def after (next : S → E → Option S) : List E → S → Option S
  | [], s => some s
  | e :: rest, s => (next s e).bind (after next rest)

/-- A run that is computed is a run, with the condition that the computation checks. -/
theorem meets_of_after {C : S → E → Prop} {next : S → E → Option S}
    (hnext : ∀ s e s', next s e = some s' → C s e ∧ step s e s') :
    ∀ (es : List E) {s₀ s s' : S} {es₀ : List E}, Meets step C s₀ es₀ s →
    after next es s = some s' →
      Meets step C s₀ (es₀ ++ es) s' := by
  intro es
  induction es with
  | nil =>
    intro s₀ s s' es₀ h heq
    cases heq
    rwa [List.append_nil]
  | cons e rest ih =>
    intro s₀ s s' es₀ h heq
    obtain ⟨s₁, he, hrest⟩ := Option.bind_eq_some_iff.mp heq
    obtain ⟨hc, hs⟩ := hnext s e s₁ he
    have htail := ih (h.snoc hc hs) hrest
    rwa [List.append_assoc] at htail

/-- The state after a list of events, with what is recorded on the way. -/
def afterRecorded (next : S → E → Option S) (record : S → E → S → List O) :
    List E → S → Option (List O × S)
  | [], s => some ([], s)
  | e :: rest, s =>
    (next s e).bind fun s' => (afterRecorded next record rest s').map fun r =>
      (record s e s' ++ r.1, r.2)

/-- What is computed with its record is a run with this record. -/
theorem recorded_of_after {next : S → E → Option S} {record : S → E → S → List O}
    (hnext : ∀ s e s', next s e = some s' → step s e s') :
    ∀ (es : List E) {s₀ s s' : S} {os₀ os : List O}, Recorded step record s₀ os₀ s →
      afterRecorded next record es s = some (os, s') → Recorded step record s₀ (os₀ ++ os) s' := by
  intro es
  induction es with
  | nil =>
    intro s₀ s s' os₀ os h heq
    cases heq
    rwa [List.append_nil]
  | cons e rest ih =>
    intro s₀ s s' os₀ os h heq
    obtain ⟨s₁, he, hrest⟩ := Option.bind_eq_some_iff.mp heq
    obtain ⟨r, hr, hpair⟩ := Option.map_eq_some_iff.mp hrest
    cases hpair
    rw [← List.append_assoc]
    exact ih (h.snoc (hnext s e s₁ he)) hr

end Run
