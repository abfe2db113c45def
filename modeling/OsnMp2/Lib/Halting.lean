import Mathlib.Logic.Basic

/-!
# Computations that may halt

A kernel function reads and writes a state and may halt instead of returning: it panics, or it
goes to sleep and does not come back in this run. Such a function is a state transformer over
`Except`; the lemmas of this module take a completed run of a composed computation apart into
the completed runs of its parts.

## Main definitions

* `Halting σ ε`: computations over the state `σ` that halt with an `ε`
* `Halting.zoom`: a computation on a part of the state, run on the whole state
* `Halting.Keeps`: a relation between the states before and after every completed run
* `Halting.Raises`: a bound on the ways in which a computation halts
* `Halting.Safe`: pre- and postconditions, with a bound on the ways to halt
* `Halting.Returns`: a computation returns from a state

## Main results

* `Halting.bind_eq_ok`, `Halting.bind_eq_error`: a sequence returns when both parts do, and halts
  when one of them does
* `Halting.zoom_eq_ok`, `Halting.zoom_eq_error`: the runs of a computation on a part of the state
* `Halting.keeps_bind`: a preorder between states is kept by a sequence when its parts keep it
* `Halting.raises_bind`: a sequence halts in the ways its parts do
* `Halting.safe_bind`, `Halting.returns_bind`: the rules of composition
-/

/-- Computations over the state `σ` that return a value or halt with an `ε`. -/
abbrev Halting (σ ε : Type) (α : Type) := StateT σ (Except ε) α

namespace Halting

variable {σ τ ε α β : Type}

/-- Halt with `e`. -/
def halt (e : ε) : Halting σ ε α := fun _ => .error e

/-- Run a computation on the part of the state that `view` reads and `set` writes. -/
def zoom (view : τ → σ) (set : σ → τ → τ) (x : Halting σ ε α) : Halting τ ε α := fun t =>
  match x (view t) with
  | .ok (a, s) => .ok (a, set s t)
  | .error e => .error e

@[simp] theorem pure_apply (a : α) (s : σ) : (pure a : Halting σ ε α) s = .ok (a, s) := rfl

theorem pure_eq_ok {a b : α} {s s' : σ} :
    (pure a : Halting σ ε α) s = .ok (b, s') ↔ a = b ∧ s = s' := by
  rw [pure_apply, Except.ok.injEq, Prod.mk.injEq]

@[simp] theorem halt_apply (e : ε) (s : σ) : (halt e : Halting σ ε α) s = .error e := rfl

@[simp] theorem get_apply (s : σ) : (get : Halting σ ε σ) s = .ok (s, s) := rfl

@[simp] theorem modify_apply (f : σ → σ) (s : σ) :
    (modify f : Halting σ ε Unit) s = .ok ((), f s) := rfl

theorem bind_apply (x : Halting σ ε α) (f : α → Halting σ ε β) (s : σ) :
    (x >>= f) s = match x s with
      | .ok (a, s') => f a s'
      | .error e => .error e := by
  show (do let (a, s') ← x s; f a s' : Except ε (β × σ)) = _
  cases x s <;> rfl

/-- The computation has returned, and what it returned with passes a check. -/
def passes (r : Except ε (α × σ)) (check : α → σ → Bool) : Bool :=
  match r with
  | .ok (a, s) => check a s
  | .error _ => false

theorem passes_eq_true {r : Except ε (α × σ)} {check : α → σ → Bool} :
    passes r check = true ↔ ∃ a s, r = .ok (a, s) ∧ check a s = true := by
  cases r with
  | error e => simp [passes]
  | ok p =>
    obtain ⟨a, s⟩ := p
    constructor
    · intro hcheck
      exact ⟨a, s, rfl, hcheck⟩
    · rintro ⟨a', s', hr, hcheck⟩
      cases hr
      exact hcheck

/-- A sequence returns when both of its parts return. -/
theorem bind_eq_ok {x : Halting σ ε α} {f : α → Halting σ ε β} {s : σ} {r : β × σ} :
    (x >>= f) s = .ok r ↔ ∃ a s', x s = .ok (a, s') ∧ f a s' = .ok r := by
  rw [bind_apply]
  cases h : x s with
  | error e => simp
  | ok p =>
    obtain ⟨a, s'⟩ := p
    simp only [Except.ok.injEq, Prod.mk.injEq]
    exact ⟨fun h => ⟨a, s', ⟨rfl, rfl⟩, h⟩, fun ⟨_, _, ⟨ha, hs⟩, h⟩ => ha ▸ hs ▸ h⟩

/-- A sequence halts when its first part does, or returns and its second part halts. -/
theorem bind_eq_error {x : Halting σ ε α} {f : α → Halting σ ε β} {s : σ} {e : ε} :
    (x >>= f) s = .error e ↔
      x s = .error e ∨ ∃ a s', x s = .ok (a, s') ∧ f a s' = .error e := by
  rw [bind_apply]
  cases h : x s with
  | error e => simp
  | ok p =>
    obtain ⟨a, s'⟩ := p
    simp only [Except.ok.injEq, Prod.mk.injEq, reduceCtorEq, false_or]
    exact ⟨fun h => ⟨a, s', ⟨rfl, rfl⟩, h⟩, fun ⟨_, _, ⟨ha, hs⟩, h⟩ => ha ▸ hs ▸ h⟩

theorem bind_of_ok {x : Halting σ ε α} {f : α → Halting σ ε β} {s s' : σ} {a : α}
    (h : x s = .ok (a, s')) : (x >>= f) s = f a s' := by
  rw [bind_apply, h]

theorem zoom_eq_ok {view : τ → σ} {set : σ → τ → τ} {x : Halting σ ε α} {t t' : τ} {a : α} :
    zoom view set x t = .ok (a, t') ↔ ∃ s, x (view t) = .ok (a, s) ∧ t' = set s t := by
  unfold zoom
  cases h : x (view t) with
  | error e => simp
  | ok p =>
    obtain ⟨b, s⟩ := p
    constructor
    · intro he
      simp only [Except.ok.injEq, Prod.mk.injEq] at he
      exact ⟨s, by rw [he.1], he.2.symm⟩
    · rintro ⟨s', hs, rfl⟩
      simp only [Except.ok.injEq, Prod.mk.injEq] at hs ⊢
      exact ⟨hs.1, by rw [hs.2]⟩

theorem zoom_eq_error {view : τ → σ} {set : σ → τ → τ} {x : Halting σ ε α} {t : τ} {e : ε} :
    zoom view set x t = .error e ↔ x (view t) = .error e := by
  unfold zoom
  cases h : x (view t) with
  | error e => simp
  | ok p => simp

/-! ## Relations that computations keep -/

/-- Every completed run leads from a state to a related one. -/
def Keeps (R : σ → σ → Prop) (x : Halting σ ε α) : Prop := ∀ s a s', x s = .ok (a, s') → R s s'

section Keeps

variable {R : σ → σ → Prop}

theorem keeps_pure (hr : ∀ s, R s s) (a : α) : Keeps R (pure a : Halting σ ε α) := by
  intro s b s' h
  obtain ⟨-, rfl⟩ := pure_eq_ok.mp h
  exact hr s

theorem keeps_get (hr : ∀ s, R s s) : Keeps R (get : Halting σ ε σ) := by
  intro s b s' h
  cases h
  exact hr s

theorem keeps_halt (e : ε) : Keeps R (halt e : Halting σ ε α) := by
  intro s b s' h
  cases h

theorem keeps_modify {f : σ → σ} (hf : ∀ s, R s (f s)) : Keeps R (modify f : Halting σ ε Unit) := by
  intro s b s' h
  cases h
  exact hf s

theorem keeps_bind (ht : ∀ s s' s'', R s s' → R s' s'' → R s s'') {x : Halting σ ε α}
    {f : α → Halting σ ε β} (hx : Keeps R x) (hf : ∀ a, Keeps R (f a)) : Keeps R (x >>= f) := by
  intro s b s'' h
  obtain ⟨a, s', h₁, h₂⟩ := bind_eq_ok.mp h
  exact ht s s' s'' (hx s a s' h₁) (hf a s' b s'' h₂)

theorem Keeps.mono {R' : σ → σ → Prop} {x : Halting σ ε α} (h : Keeps R x)
    (hr : ∀ s s', R s s' → R' s s') : Keeps R' x := fun s a s' hx => hr s s' (h s a s' hx)

end Keeps

/-! ## How computations halt -/

/-- Every halt of the computation is one of those in `E`. -/
def Raises (E : ε → Prop) (x : Halting σ ε α) : Prop := ∀ s e, x s = .error e → E e

section Raises

variable {E : ε → Prop}

theorem raises_pure (a : α) : Raises E (pure a : Halting σ ε α) := by
  intro s e h
  cases h

theorem raises_get : Raises E (get : Halting σ ε σ) := by
  intro s e h
  cases h

theorem raises_modify (f : σ → σ) : Raises E (modify f : Halting σ ε Unit) := by
  intro s e h
  cases h

theorem raises_halt {e : ε} (he : E e) : Raises E (halt e : Halting σ ε α) := by
  intro s e' h
  cases h
  exact he

theorem raises_bind {x : Halting σ ε α} {f : α → Halting σ ε β} (hx : Raises E x)
    (hf : ∀ a, Raises E (f a)) : Raises E (x >>= f) := by
  intro s e h
  rcases bind_eq_error.mp h with h | ⟨a, s', -, h⟩
  · exact hx s e h
  · exact hf a s' e h

theorem raises_zoom {view : τ → σ} {set : σ → τ → τ} {x : Halting σ ε α} (hx : Raises E x) :
    Raises E (zoom view set x) := by
  intro t e h
  exact hx _ e (zoom_eq_error.mp h)

theorem Raises.mono {E' : ε → Prop} {x : Halting σ ε α} (h : Raises E x) (he : ∀ e, E e → E' e) :
    Raises E' x := fun s e hx => he e (h s e hx)

end Raises

/-! ## Pre- and postconditions -/

/-- From a state in `I` the computation halts in a way of `E`, or returns a value and a state in
`Q`. -/
def Safe (I : σ → Prop) (E : ε → Prop) (x : Halting σ ε α) (Q : α → σ → Prop) : Prop :=
  ∀ s, I s → (∀ e, x s = .error e → E e) ∧ ∀ a s', x s = .ok (a, s') → Q a s'

section Safe

variable {I : σ → Prop} {E : ε → Prop}

theorem safe_pure {Q : α → σ → Prop} {a : α} (h : ∀ s, I s → Q a s) :
    Safe I E (pure a : Halting σ ε α) Q := by
  intro s hs
  refine ⟨fun e he => raises_pure a s e he, fun b s' hb => ?_⟩
  obtain ⟨rfl, rfl⟩ := pure_eq_ok.mp hb
  exact h s hs

theorem safe_modify {Q : Unit → σ → Prop} {f : σ → σ} (h : ∀ s, I s → Q () (f s)) :
    Safe I E (modify f : Halting σ ε Unit) Q := by
  intro s hs
  refine ⟨fun e he => raises_modify f s e he, fun b s' hb => ?_⟩
  cases hb
  exact h s hs

/-- A computation that keeps the precondition, whatever it returns. -/
theorem safe_of_raises {x : Halting σ ε α} (hx : Raises E x)
    (hk : ∀ s a s', x s = .ok (a, s') → I s → I s') : Safe I E x fun _ => I :=
  fun s hs => ⟨fun e he => hx s e he, fun a s' h => hk s a s' h hs⟩

theorem safe_bind {x : Halting σ ε α} {f : α → Halting σ ε β} {P : α → σ → Prop} {Q : β → σ → Prop}
    (hx : Safe I E x P) (hf : ∀ a, Safe (P a) E (f a) Q) : Safe I E (x >>= f) Q := by
  intro s hs
  obtain ⟨herr, hok⟩ := hx s hs
  refine ⟨fun e he => ?_, fun b s' hb => ?_⟩
  · rcases bind_eq_error.mp he with he | ⟨a, s₁, h₁, he⟩
    · exact herr e he
    · exact (hf a s₁ (hok a s₁ h₁)).1 e he
  · obtain ⟨a, s₁, h₁, h₂⟩ := bind_eq_ok.mp hb
    exact (hf a s₁ (hok a s₁ h₁)).2 b s' h₂

/-- Reading the state names it. -/
theorem safe_get_bind {f : σ → Halting σ ε β} {Q : β → σ → Prop}
    (hf : ∀ s, I s → Safe (· = s) E (f s) Q) : Safe I E (get >>= f) Q := by
  intro s hs
  rw [bind_of_ok (get_apply s)]
  exact hf s hs s rfl

theorem Safe.mono {P Q : α → σ → Prop} {x : Halting σ ε α} (h : Safe I E x P)
    (hq : ∀ a s, P a s → Q a s) : Safe I E x Q :=
  fun s hs => ⟨(h s hs).1, fun a s' hx => hq a s' ((h s hs).2 a s' hx)⟩

end Safe

/-! ## Computations that return -/

/-- The computation returns from the state. -/
def Returns (x : Halting σ ε α) (s : σ) : Prop := ∃ a s', x s = .ok (a, s')

section Returns

variable {s : σ}

theorem returns_pure (a : α) : Returns (pure a : Halting σ ε α) s := ⟨a, s, rfl⟩

theorem returns_modify (f : σ → σ) : Returns (modify f : Halting σ ε Unit) s := ⟨(), f s, rfl⟩

/-- A sequence returns when its first part does, and its second part does from there. -/
theorem returns_bind {x : Halting σ ε α} {f : α → Halting σ ε β} (hx : Returns x s)
    (hf : ∀ a s', x s = .ok (a, s') → Returns (f a) s') : Returns (x >>= f) s := by
  obtain ⟨a, s', hrun⟩ := hx
  obtain ⟨b, s'', hrun'⟩ := hf a s' hrun
  exact ⟨b, s'', bind_eq_ok.mpr ⟨a, s', hrun, hrun'⟩⟩

theorem returns_bind_of_ok {x : Halting σ ε α} {f : α → Halting σ ε β} {a : α} {s' : σ}
    (hx : x s = .ok (a, s')) (hf : Returns (f a) s') : Returns (x >>= f) s := by
  unfold Returns
  rw [bind_of_ok hx]
  exact hf

theorem returns_zoom {view : τ → σ} {set : σ → τ → τ} {x : Halting σ ε α} {t : τ}
    (hx : Returns x (view t)) : Returns (zoom view set x) t := by
  obtain ⟨a, s', hrun⟩ := hx
  exact ⟨a, set s' t, zoom_eq_ok.mpr ⟨s', hrun, rfl⟩⟩

/-- A computation that never halts returns. -/
theorem returns_of_raises {x : Halting σ ε α} (h : Raises (fun _ => False) x) : Returns x s := by
  cases hx : x s with
  | error e => exact absurd hx (h s e)
  | ok p => exact ⟨p.1, p.2, hx⟩

end Returns

end Halting
