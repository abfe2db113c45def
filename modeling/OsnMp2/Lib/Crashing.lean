import Mathlib.Logic.Basic

/-!
# Computations that stop with their state

A program that is followed up to the point where it stops: it returns a value or it fails, and in
both cases the state at that point is there to be looked at. What holds of it is stated by a
precondition transformer, with a condition for each of the two ends.

## Main definitions

* `Crashing σ ε α`: computations over the state `σ` that keep it when they fail
* `Crashing.wp x Q E s`: from `s`, `x` returns with `Q` or fails with `E`
* `Crashing.loop`: a counting loop

## Main results

* `wp_bind`, `wp_get`, `wp_modify`: the rules of the transformer
* `wp_loop`: the invariant rule for the counting loop
* `FailsWith.bind`: the failures of a program are those of its parts
-/

/-- Computations over the state `σ` that return a value or fail, with the state in which they
stop. -/
abbrev Crashing (σ ε α : Type) := ExceptT ε (StateM σ) α

namespace Crashing

variable {σ ε α β : Type} {s : σ} {E : σ → Prop}

/-- Where the computation stops. -/
def exec (x : Crashing σ ε α) (s : σ) : Except ε α × σ := x.run.run s

/-- From `s`, the computation returns with `Q` or fails with `E`. -/
def wp (x : Crashing σ ε α) (Q : α → σ → Prop) (E : σ → Prop) (s : σ) : Prop :=
  match x.exec s with
  | (.ok a, s') => Q a s'
  | (.error _, s') => E s'

theorem wp_pure {a : α} {Q : α → σ → Prop} : wp (pure a : Crashing σ ε α) Q E s ↔ Q a s := Iff.rfl

theorem wp_get {Q : σ → σ → Prop} : wp (get : Crashing σ ε σ) Q E s ↔ Q s s := Iff.rfl

theorem wp_modify {f : σ → σ} {Q : Unit → σ → Prop} :
    wp (modify f : Crashing σ ε Unit) Q E s ↔ Q () (f s) := Iff.rfl

theorem exec_bind (x : Crashing σ ε α) (f : α → Crashing σ ε β) (s : σ) :
    (x >>= f).exec s = match x.exec s with
      | (.ok a, s') => (f a).exec s'
      | (.error e, s') => (.error e, s') := by
  show (ExceptT.bind x f).run.run s = _
  unfold ExceptT.bind exec
  show (x.run >>= ExceptT.bindCont f).run s = _
  rw [StateT.run_bind]
  show (match x.run.run s with | (a, s') => (ExceptT.bindCont f a).run s') = _
  cases x.run.run s with
  | mk r s' => cases r <;> rfl

theorem wp_bind {x : Crashing σ ε α} {f : α → Crashing σ ε β} {Q : β → σ → Prop} :
    wp (x >>= f) Q E s ↔ wp x (fun a s' => wp (f a) Q E s') E s := by
  unfold wp
  rw [exec_bind]
  cases x.exec s with
  | mk r s' => cases r <;> rfl

theorem wp_mono {x : Crashing σ ε α} {Q Q' : α → σ → Prop} {E' : σ → Prop} (h : wp x Q E s)
    (hQ : ∀ a s', Q a s' → Q' a s') (hE : ∀ s', E s' → E' s') : wp x Q' E' s := by
  unfold wp at *
  split at h
  · exact hQ _ _ h
  · exact hE _ h

/-- A computation that does not fail. -/
theorem returns_of_wp {x : Crashing σ ε α} {Q : α → σ → Prop} (h : wp x Q (fun _ => False) s) :
    ∃ a s', x.exec s = (.ok a, s') ∧ Q a s' := by
  unfold wp at h
  split at h
  · next a s' heq => exact ⟨a, s', heq, h⟩
  · exact h.elim

theorem wp_returned {x : Crashing σ ε α} {Q : α → σ → Prop} {a : α} {s' : σ} (h : wp x Q E s)
    (hx : x.exec s = (.ok a, s')) : Q a s' := by
  unfold wp at h
  rwa [hx] at h

theorem wp_failed {x : Crashing σ ε α} {Q : α → σ → Prop} {e : ε} {s' : σ} (h : wp x Q E s)
    (hx : x.exec s = (.error e, s')) : E s' := by
  unfold wp at h
  rwa [hx] at h

/-! ## Failures -/

/-- When the computation fails, it is with `e`. -/
def FailsWith (x : Crashing σ ε α) (e : ε) : Prop := ∀ s e' s', x.exec s = (.error e', s') → e' = e

theorem failsWith_pure (a : α) (e : ε) : FailsWith (pure a : Crashing σ ε α) e :=
  fun _ _ _ h => by cases h

theorem failsWith_get (e : ε) : FailsWith (get : Crashing σ ε σ) e := fun _ _ _ h => by cases h

theorem failsWith_modify (f : σ → σ) (e : ε) : FailsWith (modify f : Crashing σ ε Unit) e :=
  fun _ _ _ h => by cases h

theorem failsWith_throw (e : ε) : FailsWith (throw e : Crashing σ ε α) e := fun _ _ _ h => by
  cases h
  rfl

theorem FailsWith.bind {x : Crashing σ ε α} {f : α → Crashing σ ε β} {e : ε} (hx : FailsWith x e)
    (hf : ∀ a, FailsWith (f a) e) : FailsWith (x >>= f) e := by
  intro s e' s' h
  rw [exec_bind] at h
  cases hrun : x.exec s with
  | mk r s₁ =>
    rw [hrun] at h
    cases r with
    | ok a => exact hf a s₁ e' s' h
    | error e₁ =>
      cases h
      exact hx s e' s' hrun

/-! ## Loops -/

/-- Run the body for `n` numbers, from `i` on. -/
def loop (body : Nat → Crashing σ ε Unit) : Nat → Nat → Crashing σ ε Unit
  | 0, _ => pure ()
  | n + 1, i => do
    body i
    loop body n (i + 1)

/-- **The invariant rule** for the counting loop. -/
theorem wp_loop {body : Nat → Crashing σ ε Unit} {I : Nat → σ → Prop} (n : Nat) :
    ∀ {i : Nat} {s : σ}, (∀ j s, i ≤ j → j < i + n → I j s →
      wp (body j) (fun _ s' => I (j + 1) s') E s) →
      I i s → wp (loop body n i) (fun _ s' => I (i + n) s') E s := by
  induction n with
  | zero =>
    intro i s _ hs
    exact hs
  | succ n ih =>
    intro i s hbody hs
    rw [loop, wp_bind]
    refine wp_mono (hbody i s (Nat.le_refl i) (by omega) hs) (fun _ s' hs' => ?_) fun s' h => h
    have hrest := ih (i := i + 1) (s := s') (fun j s hj hlt => hbody j s (by omega) (by omega)) hs'
    rwa [show i + 1 + n = i + (n + 1) by omega] at hrest

end Crashing
