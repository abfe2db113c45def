import OsnMp2.Lib.Runs

/-!
# Forward simulation

A map from the states of one system to those of another, under which each step is a step there or
changes nothing, takes runs to runs. The events are translated one by one; those without a
translation are the internal ones.

## Main results

* `Run.simulate`: the image of a run
-/

universe u v u' v'

variable {S : Type u} {E : Type v} {S' : Type u'} {E' : Type v'}

/-- **The simulation rule**, with an invariant of the first system. -/
theorem Run.simulate {step : S → E → S → Prop} {step' : S' → E' → S' → Prop} (f : S → S')
    (label : E → Option E') {I : S → Prop} (hinv : ∀ s e s', I s → step s e s' → I s')
    (hvisible : ∀ s e s' a, I s → step s e s' → label e = some a → step' (f s) a (f s'))
    (hinternal : ∀ s e s', I s → step s e s' → label e = none → f s' = f s) {s s' : S} {es : List E}
    (h : Run step s es s') (hs : I s) : Run step' (f s) (es.filterMap label) (f s') := by
  induction h with
  | nil => exact .nil _
  | @snoc s₁ s₂ es e run last ih =>
    have hs₁ := run.invariant hinv hs
    rw [List.filterMap_append]
    cases he : label e with
    | some a =>
      rw [List.filterMap_cons_some he, List.filterMap_nil]
      exact .snoc ih (hvisible s₁ e s₂ a hs₁ last he)
    | none =>
      rw [List.filterMap_cons_none he, List.filterMap_nil, List.append_nil,
        hinternal s₁ e s₂ hs₁ last he]
      exact ih
