import Mathlib.Data.Nat.Basic
import OsnMp2.Lib.Halting

/-!
# Loops over a range, block by block

A loop goes over the `n` places from `a` on in blocks of size `P`: in each round it reaches for the
block of `a`, which may be refused, acts on the part of the range that lies in the block, which may
stop the loop, and goes on at the next block. The alignment of both ends and the position of a
refused block are all in `loop_split`: a loop over a range is the loop over a prefix that ends with
a block, then the loop over the rest.

## Main definitions

* `Chunks.End`: how a loop ends
* `Chunks.first`: how much of a range lies in its first block
* `Chunks.run`, `Chunks.loop`: the loop, with a bound on its rounds and without

## Main results

* `Chunks.run_eq_loop`: the bound does not matter
* `Chunks.loop_split`: a prefix, then the rest
* `Chunks.loop_refused`: a loop is refused when the loop over a prefix is through and
  the next block is refused
* `Chunks.loop_total`, `Chunks.loop_keeps`: the rules for total and for partial correctness
* `Chunks.loop_congr`: actions that agree on what is reached
-/

namespace Chunks

/-- How a loop ends: at the end of the range, at a block that was refused, or in the middle of a
block. -/
inductive End
  | through | refused | stopped
deriving DecidableEq

variable {σ ε α β : Type}

/-- How many of the `n` places from `a` on lie in the block of `a`. -/
def first (P a n : Nat) : Nat := min (P - a % P) n

/-- One round: reach for the block of `a`, act on `n` places from `a` on, and go on. -/
def round (reach : Nat → Halting σ ε (Option β)) (act : β → Nat → Nat → α → Halting σ ε (α × Bool))
    (a n : Nat) (acc : α) (next : α → Halting σ ε (End × α)) : Halting σ ε (End × α) := do
  match ← reach a with
  | none => pure (.refused, acc)
  | some x => do
    let y ← act x a n acc
    if y.2 then pure (.stopped, y.1) else next y.1

/-- The loop over the `n` places from `a` on. The first number bounds the rounds. -/
def run (P : Nat) (reach : Nat → Halting σ ε (Option β))
    (act : β → Nat → Nat → α → Halting σ ε (α × Bool)) : Nat → Nat → Nat → α → Halting σ ε (End × α)
  | 0, _, _, acc => pure (.through, acc)
  | fuel + 1, a, n, acc =>
    if n = 0 then pure (.through, acc)
    else round reach act a (first P a n) acc (run P reach act fuel (a + first P a n)
      (n - first P a n))

/-- The loop, with as many rounds as it may need. -/
def loop (P : Nat) (reach : Nat → Halting σ ε (Option β))
    (act : β → Nat → Nat → α → Halting σ ε (α × Bool))
    (a n : Nat) (acc : α) : Halting σ ε (End × α) :=
  run P reach act n a n acc

/-- Go on when the end of the range is reached. -/
def andThen (f : α → Halting σ ε (End × α)) (x : End × α) : Halting σ ε (End × α) :=
  if x.1 = .through then f x.2 else pure x

variable {P : Nat} {reach : Nat → Halting σ ε (Option β)}
  {act : β → Nat → Nat → α → Halting σ ε (α × Bool)} {a n k : Nat} {acc acc' : α} {s s' : σ}

/-! ## Blocks -/

theorem first_le (P a n : Nat) : first P a n ≤ n := Nat.min_le_right _ _

theorem first_pos (hP : 0 < P) (hn : 0 < n) : 0 < first P a n := by
  have hmod := Nat.mod_lt a hP
  unfold first
  omega

/-- A prefix that ends with a block has the same first block. -/
theorem first_prefix (hP : 0 < P) (hk : 0 < k) (hkn : k ≤ n) (hend : k = n ∨ (a + k) % P = 0) :
    first P a k = first P a n := by
  rcases hend with rfl | hend
  · rfl
  have hle : P - a % P ≤ k := by
    by_contra hc
    have hmod := Nat.mod_lt a hP
    have hsum : (a + k) % P = a % P + k := by
      rw [Nat.add_mod, Nat.mod_eq_of_lt (a := k) (by omega), Nat.mod_eq_of_lt (by omega)]
    omega
  unfold first
  omega

/-- What is left of the range begins with a block. -/
theorem first_aligned (hP : 0 < P) (hlt : first P a n < n) : (a + first P a n) % P = 0 := by
  have hmod := Nat.mod_lt a hP
  have hfirst : first P a n = P - a % P := by
    unfold first at hlt ⊢
    omega
  have hdiv := Nat.div_add_mod a P
  have hsum : a + first P a n = P * (a / P) + P := by omega
  rw [hsum, Nat.add_mod_right, Nat.mul_mod_right]

/-! ## The loop without the bound -/

theorem run_fuel (hP : 0 < P) : ∀ fuel fuel' {a n : Nat} (acc : α), n ≤ fuel → n ≤ fuel' →
    run P reach act fuel a n acc = run P reach act fuel' a n acc := by
  intro fuel
  induction fuel with
  | zero =>
    intro fuel' a n acc hn hn'
    obtain rfl : n = 0 := by omega
    cases fuel' <;> rfl
  | succ fuel ih =>
    intro fuel' a n acc hn hn'
    cases fuel' with
    | zero =>
      obtain rfl : n = 0 := by omega
      rfl
    | succ fuel' =>
      rw [run, run]
      split
      · rfl
      · next hpos =>
        have hfirst := first_pos (a := a) hP (Nat.pos_of_ne_zero hpos)
        congr 1
        funext acc'
        exact ih fuel' acc' (by omega) (by omega)

/-- **The bound on the rounds** does not matter when there is one for each place. -/
theorem run_eq_loop (hP : 0 < P) {fuel : Nat} (h : n ≤ fuel) :
    run P reach act fuel a n acc = loop P reach act a n acc := run_fuel hP fuel n acc h le_rfl

@[simp] theorem loop_zero : loop P reach act a 0 acc = pure (.through, acc) := rfl

theorem loop_of_pos (hP : 0 < P) (hn : 0 < n) :
    loop P reach act a n acc =
      round reach act a (first P a n) acc (loop P reach act (a + first P a n)
        (n - first P a n)) := by
  obtain ⟨fuel, rfl⟩ : ∃ fuel, n = fuel + 1 := ⟨n - 1, by omega⟩
  rw [loop, run, if_neg (by omega)]
  have hfirst := first_pos (a := a) hP hn
  congr 1
  funext acc'
  exact run_eq_loop hP (by omega)

/-- The induction on the length of the range: a round, then what is left. -/
theorem induct {motive : Nat → Nat → Prop} (hP : 0 < P) (zero : ∀ a, motive a 0)
    (step : ∀ a n, 0 < n → motive (a + first P a n) (n - first P a n) → motive a n) (a n : Nat) :
    motive a n := by
  induction n using Nat.strongRecOn generalizing a with
  | ind n ih =>
    rcases Nat.eq_zero_or_pos n with rfl | hn
    · exact zero a
    · have hfirst := first_pos (a := a) hP hn
      exact step a n hn (ih _ (by omega) _)

/-! ## Rounds -/

theorem round_of_none {next : α → Halting σ ε (End × α)} (h : reach a s = .ok (none, s')) :
    round reach act a n acc next s = .ok ((.refused, acc), s') := by
  unfold round
  rw [Halting.bind_of_ok h]
  rfl

theorem round_of_some {next : α → Halting σ ε (End × α)} {x : β} {s₁ : σ} {stop : Bool}
    (h : reach a s = .ok (some x, s₁)) (h' : act x a n acc s₁ = .ok ((acc', stop), s')) :
    round reach act a n acc next s = (if stop then pure (.stopped, acc') else next acc') s' := by
  unfold round
  rw [Halting.bind_of_ok h]
  dsimp only
  rw [Halting.bind_of_ok h']

/-- A round that is over was refused, stopped, or went on. -/
theorem round_eq_ok {next : α → Halting σ ε (End × α)} {r : (End × α) × σ}
    (h : round reach act a n acc next s = .ok r) :
    reach a s = .ok (none, r.2) ∧ r.1 = (.refused, acc) ∨
    ∃ x s₁ acc', reach a s = .ok (some x, s₁) ∧
      (act x a n acc s₁ = .ok ((acc', true), r.2) ∧ r.1 = (.stopped, acc') ∨
        ∃ s₂, act x a n acc s₁ = .ok ((acc', false), s₂) ∧ next acc' s₂ = .ok r) := by
  unfold round at h
  obtain ⟨o, s₁, hreach, h⟩ := Halting.bind_eq_ok.mp h
  cases o with
  | none =>
    cases h
    exact Or.inl ⟨hreach, rfl⟩
  | some x =>
    obtain ⟨⟨acc', stop⟩, s₂, hact, h⟩ := Halting.bind_eq_ok.mp h
    refine Or.inr ⟨x, s₁, acc', hreach, ?_⟩
    cases stop with
    | true =>
      cases h
      exact Or.inl ⟨hact, rfl⟩
    | false => exact Or.inr ⟨s₂, hact, h⟩

theorem round_andThen {next f : α → Halting σ ε (End × α)} :
    round reach act a n acc next >>= andThen f = round reach act a n acc fun acc' => next acc' >>=
    andThen f := by
  unfold round
  rw [bind_assoc]
  congr 1
  funext o
  cases o with
  | none =>
    rw [pure_bind]
    rfl
  | some x =>
    dsimp only
    rw [bind_assoc]
    congr 1
    funext y
    obtain ⟨acc', stop⟩ := y
    cases stop with
    | true =>
      dsimp only
      rw [if_pos rfl, if_pos rfl, pure_bind]
      rfl
    | false => rfl

/-! ## A prefix, then the rest -/

/-- **A loop over a range** is the loop over a prefix that ends with a block, then the loop over the
rest. -/
theorem loop_split (hP : 0 < P) (hk : k ≤ n) (hend : k = n ∨ (a + k) % P = 0) :
    loop P reach act a n acc = loop P reach act a k acc >>=
    andThen (loop P reach act (a + k) (n - k)) := by
  induction a, k using induct hP generalizing n acc with
  | zero a =>
    rw [loop_zero, pure_bind, andThen, if_pos rfl, Nat.add_zero, Nat.sub_zero]
  | step a k hpos ih =>
    have hfirst := first_prefix hP hpos hk hend
    have hle := first_le P a k
    rw [loop_of_pos hP (Nat.lt_of_lt_of_le hpos hk), loop_of_pos hP hpos, round_andThen, hfirst]
    congr 1
    funext acc'
    rw [hfirst] at ih hle
    rw [ih (n := n - first P a n) (by omega) (by
      rcases hend with rfl | hend
      · exact Or.inl rfl
      · exact Or.inr (by rw [Nat.add_assoc, Nat.add_sub_cancel' hle]; exact hend))]
    rw [Nat.add_assoc, Nat.add_sub_cancel' hle, Nat.sub_sub, Nat.add_sub_cancel' hle]

/-- **A loop is refused** exactly when the loop over a prefix is through and the next block is
refused. -/
theorem loop_refused (hP : 0 < P) :
    loop P reach act a n acc s = .ok ((.refused, acc'), s') ↔
      ∃ k s₁, k < n ∧ (k = 0 ∨ (a + k) % P = 0) ∧
      loop P reach act a k acc s = .ok ((.through, acc'), s₁) ∧
        reach (a + k) s₁ = .ok (none, s') := by
  constructor
  · intro h
    induction a, n using induct hP generalizing acc s with
    | zero a => cases h
    | step a n hpos ih =>
      rw [loop_of_pos hP hpos] at h
      rcases round_eq_ok h with ⟨hreach, hr⟩ | ⟨x, s₁, acc₁, hreach, ⟨-, hr⟩ | ⟨s₂, hact, hnext⟩⟩
      · obtain ⟨-, rfl⟩ := Prod.mk.inj hr
        exact ⟨0, s, hpos, Or.inl rfl, rfl, hreach⟩
      · cases hr
      · obtain ⟨k, s₃, hk, hal, hrun, hnone⟩ := ih hnext
        have hfirst := first_pos (a := a) hP hpos
        have hal' : (a + (first P a n + k)) % P = 0 := by
          rcases hal with rfl | hal
          · exact first_aligned hP (by omega)
          · rw [← Nat.add_assoc]
            exact hal
        refine ⟨first P a n + k, s₃, by omega, Or.inr hal', ?_,
          by rw [← Nat.add_assoc]; exact hnone⟩
        have hsame : first P a (first P a n + k) = first P a n :=
          first_prefix hP (by omega) (by omega) (Or.inr hal')
        rw [loop_of_pos hP (by omega), round_of_some hreach (by rw [hsame]; exact hact),
          if_neg (by decide), hsame, Nat.add_sub_cancel_left]
        exact hrun
  · rintro ⟨k, s₁, hk, hal, hrun, hnone⟩
    have hrest : loop P reach act (a + k) (n - k) acc' s₁ = .ok ((.refused, acc'), s') := by
      rw [loop_of_pos hP (by omega)]
      exact round_of_none hnone
    rcases hal with rfl | hal
    · cases hrun
      exact hrest
    · rw [loop_split hP (Nat.le_of_lt hk) (Or.inr hal), Halting.bind_of_ok hrun,
        andThen, if_pos rfl]
      exact hrest

/-! ## Rules -/

variable (reach act) in
/-- **The rule for total correctness**: when every round reaches its block, the loop is through or
stopped. -/
theorem loop_total (hP : 0 < P) {I : Nat → Nat → α → σ → Prop} {Q : α → σ → Prop}
    (hround : ∀ a n acc s, 0 < n → I a n acc s → ∃ x s₁ acc' s', reach a s = .ok (some x, s₁) ∧
      (act x a (first P a n) acc s₁ = .ok ((acc', false), s') ∧
          I (a + first P a n) (n - first P a n) acc' s' ∨
        act x a (first P a n) acc s₁ = .ok ((acc', true), s') ∧ Q acc' s'))
    (a n : Nat) (acc : α) (s : σ) (h : I a n acc s) :
    (∃ a' acc' s', loop P reach act a n acc s = .ok ((.through, acc'), s') ∧ I a' 0 acc' s') ∨
      ∃ acc' s', loop P reach act a n acc s = .ok ((.stopped, acc'), s') ∧ Q acc' s' := by
  induction a, n using induct hP generalizing acc s with
  | zero a => exact Or.inl ⟨a, acc, s, rfl, h⟩
  | step a n hpos ih =>
    obtain ⟨x, s₁, acc₁, s₂, hreach, ⟨hact, hI⟩ | ⟨hact, hQ⟩⟩ := hround a n acc s hpos h
    · rw [loop_of_pos hP hpos, round_of_some hreach hact, if_neg (by decide)]
      exact ih acc₁ s₂ hI
    · rw [loop_of_pos hP hpos, round_of_some hreach hact, if_pos rfl]
      exact Or.inr ⟨acc₁, s₂, rfl, hQ⟩

variable (reach act) in
/-- **The rule for partial correctness**, with the place, the length that is left and the value so
far. -/
theorem loop_keeps (hP : 0 < P) {I : Nat → Nat → α → σ → Prop} {Q : α → σ → Prop}
    (hreach : ∀ a n acc s o s', 0 < n → I a n acc s → reach a s = .ok (o, s') → I a n acc s')
    (hact : ∀ a n acc s₀ s x acc' stop s', 0 < n → I a n acc s → reach a s₀ = .ok (some x, s) →
      act x a (first P a n) acc s = .ok ((acc', stop), s') →
      stop = false ∧ I (a + first P a n) (n - first P a n) acc' s' ∨ stop = true ∧ Q acc' s')
    {a n : Nat} {acc : α} {e : End} (h : I a n acc s)
    (hrun : loop P reach act a n acc s = .ok ((e, acc'), s')) :
    e = .through ∧ (∃ a', I a' 0 acc' s') ∨ e = .refused ∧ (∃ a' n', 0 < n' ∧ I a' n' acc' s') ∨
      e = .stopped ∧ Q acc' s' := by
  induction a, n using induct hP generalizing acc s with
  | zero a =>
    cases hrun
    exact Or.inl ⟨rfl, a, h⟩
  | step a n hpos ih =>
    rw [loop_of_pos hP hpos] at hrun
    rcases round_eq_ok hrun with ⟨hno, hr⟩ | ⟨x, s₁, acc₁, hsome, ⟨hstop, hr⟩ | ⟨s₂, hgo, hnext⟩⟩
    · obtain ⟨rfl, rfl⟩ := Prod.mk.inj hr
      exact Or.inr (Or.inl ⟨rfl, a, n, hpos, hreach a n _ s _ _ hpos h hno⟩)
    · obtain ⟨rfl, rfl⟩ := Prod.mk.inj hr
      have hI := hreach a n _ s _ _ hpos h hsome
      rcases hact a n _ s s₁ x _ _ _ hpos hI hsome hstop with ⟨hc, -⟩ | ⟨-, hQ⟩
      · cases hc
      · exact Or.inr (Or.inr ⟨rfl, hQ⟩)
    · have hI := hreach a n _ s _ _ hpos h hsome
      rcases hact a n _ s s₁ x _ _ _ hpos hI hsome hgo with ⟨-, hI'⟩ | ⟨hc, -⟩
      · exact ih hI' hnext
      · cases hc

/-- **Actions that agree** on what is reached give the same loop. -/
theorem loop_congr (hP : 0 < P) {act' : β → Nat → Nat → α → Halting σ ε (α × Bool)}
    (h : ∀ a n acc s₀ x s, reach a s₀ = .ok (some x, s) →
      act' x a (first P a n) acc s = act x a (first P a n) acc s) :
    loop P reach act' a n acc s = loop P reach act a n acc s := by
  induction a, n using induct hP generalizing acc s with
  | zero a => rfl
  | step a n hpos ih =>
    rw [loop_of_pos hP hpos, loop_of_pos hP hpos]
    unfold round
    rw [Halting.bind_apply, Halting.bind_apply]
    cases hreach : reach a s with
    | error e => rfl
    | ok p =>
      obtain ⟨o, s₁⟩ := p
      cases o with
      | none => rfl
      | some x =>
        dsimp only
        rw [Halting.bind_apply, Halting.bind_apply, h a n acc s x s₁ hreach]
        cases act x a (first P a n) acc s₁ with
        | error e => rfl
        | ok q =>
          obtain ⟨⟨acc', stop⟩, s₂⟩ := q
          cases stop with
          | true => rfl
          | false => exact ih

end Chunks
