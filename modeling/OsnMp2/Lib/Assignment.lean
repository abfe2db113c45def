import Mathlib.Logic.Function.Basic

/-!
# Workers and jobs

Each worker does at most one job at a time, and each job that is under way is done by exactly one
worker. The lemmas say how this is kept when a worker starts a job or finishes one.

## Main definitions

* `Assigned f busy`: the jobs under way are those that the workers do, each by one of them

## Main results

* `Assigned.start`, `Assigned.stop`: a worker starts a job, or finishes it
* `Assigned.stopAll`: some of the workers finish their jobs
-/

variable {ι α : Type} {f : ι → Option α} {busy busy' : α → Prop} {i j : ι} {a : α}

/-- The workers `ι` do the jobs that are under way, each of them by one worker. -/
structure Assigned (f : ι → Option α) (busy : α → Prop) : Prop where
  iff : ∀ a, busy a ↔ ∃ i, f i = some a
  unique : ∀ i j a, f i = some a → f j = some a → i = j

namespace Assigned

theorem congr (h : Assigned f busy) (hb : ∀ a, busy' a ↔ busy a) : Assigned f busy' where
  iff a := (hb a).trans (h.iff a)
  unique := h.unique

theorem busy_of (h : Assigned f busy) (hj : f j = some a) : busy a := (h.iff a).mpr ⟨j, hj⟩

/-- **The workers in `P` finish their jobs.** -/
theorem stopAll {f' : ι → Option α} {P : ι → Prop} (h : Assigned f busy)
    (hin : ∀ i, P i → f' i = none)
    (hout : ∀ i, ¬ P i → f' i = f i) (hbusy : ∀ b, busy' b ↔ busy b ∧ ¬ ∃ i, P i ∧ f i = some b) :
    Assigned f' busy' := by
  have hnot : ∀ {i b}, f' i = some b → ¬ P i := by
    intro i b hi hp
    rw [hin i hp] at hi
    cases hi
  refine ⟨fun b => ?_, fun i j b hi hj => ?_⟩
  · rw [hbusy]
    constructor
    · rintro ⟨hb, hfree⟩
      obtain ⟨i, hi⟩ := (h.iff b).mp hb
      refine ⟨i, ?_⟩
      rw [hout i fun hp => hfree ⟨i, hp, hi⟩]
      exact hi
    · rintro ⟨i, hi⟩
      have hi' := hi
      rw [hout i (hnot hi)] at hi'
      refine ⟨h.busy_of hi', ?_⟩
      rintro ⟨j, hp, hj⟩
      rw [h.unique j i b hj hi'] at hp
      exact hnot hi hp
  · have hi' := hi
    have hj' := hj
    rw [hout i (hnot hi)] at hi'
    rw [hout j (hnot hj)] at hj'
    exact h.unique i j b hi' hj'

variable [DecidableEq ι]

/-- **A free worker starts a job** that is not under way. -/
theorem start (h : Assigned f busy) (hj : f j = none) (ha : ¬ busy a) :
    Assigned (Function.update f j (some a)) fun b => busy b ∨ b = a where
  iff b := by
    constructor
    · rintro (hb | rfl)
      · obtain ⟨i, hi⟩ := (h.iff b).mp hb
        have hij : i ≠ j := by
          rintro rfl
          rw [hj] at hi
          cases hi
        exact ⟨i, by rw [Function.update_of_ne hij, hi]⟩
      · exact ⟨j, Function.update_self ..⟩
    · rintro ⟨i, hi⟩
      by_cases hij : i = j
      · rw [hij, Function.update_self] at hi
        exact Or.inr (Option.some.inj hi).symm
      · rw [Function.update_of_ne hij] at hi
        exact Or.inl (h.busy_of hi)
  unique i i' b hi hi' := by
    by_cases hij : i = j
    · by_cases hij' : i' = j
      · rw [hij, hij']
      · -- the other worker would do the job that is not under way
        rw [hij, Function.update_self] at hi
        rw [Function.update_of_ne hij', ← hi] at hi'
        exact absurd (h.busy_of hi') ha
    · rw [Function.update_of_ne hij] at hi
      by_cases hij' : i' = j
      · rw [hij', Function.update_self] at hi'
        rw [← hi'] at hi
        exact absurd (h.busy_of hi) ha
      · rw [Function.update_of_ne hij'] at hi'
        exact h.unique i i' b hi hi'

/-- **A worker finishes its job.** -/
theorem stop (h : Assigned f busy) (hj : f j = some a) :
    Assigned (Function.update f j none) fun b => busy b ∧ b ≠ a where
  iff b := by
    constructor
    · rintro ⟨hb, hne⟩
      obtain ⟨i, hi⟩ := (h.iff b).mp hb
      have hij : i ≠ j := by
        rintro rfl
        rw [hj] at hi
        exact hne (Option.some.inj hi).symm
      exact ⟨i, by rw [Function.update_of_ne hij, hi]⟩
    · rintro ⟨i, hi⟩
      have hij : i ≠ j := by
        rintro rfl
        rw [Function.update_self] at hi
        cases hi
      rw [Function.update_of_ne hij] at hi
      refine ⟨h.busy_of hi, ?_⟩
      rintro rfl
      exact hij (h.unique i j b hi hj)
  unique i i' b hi hi' := by
    have hne : ∀ {k}, Function.update f j none k = some b → k ≠ j := by
      rintro k hk rfl
      rw [Function.update_self] at hk
      cases hk
    rw [Function.update_of_ne (hne hi)] at hi
    rw [Function.update_of_ne (hne hi')] at hi'
    exact h.unique i i' b hi hi'

end Assigned
