import Mathlib.Data.Fintype.Lattice
import Mathlib.Algebra.Group.Nat.Defs

/-!
# Waiting for resources in the order of a rank

Agents hold resources and wait for others. When an agent waits only for a resource of a higher rank
than all that it holds, not all holders can wait.

## Main results

* `exists_holder_not_waiting`: where an agent waits, a holder does not wait
-/

variable {T R : Type} [Finite T]

/-- **A holder does not wait**, where an agent waits for a resource that is held. -/
theorem exists_holder_not_waiting {waits : T → Option R} {holder : R → Option T} (rank : R → Nat)
    (hup : ∀ t r r', waits t = some r → holder r' = some t → rank r' < rank r)
    (hheld : ∀ t r, waits t = some r → ∃ t', holder r = some t') {t : T} {r : R}
    (h : waits t = some r) : ∃ t' r', holder r' = some t' ∧ waits t' = none := by
  let height : T → Nat := fun t => (waits t).elim 0 fun r => rank r + 1
  have : Nonempty T := ⟨t⟩
  -- the one that waits for the resource of the highest rank
  obtain ⟨t₀, hmax⟩ := Finite.exists_max height
  have hpos : 0 < height t₀ := lt_of_lt_of_le (by simp [height, h]) (hmax t)
  cases hw : waits t₀ with
  | none => simp [height, hw] at hpos
  | some r₀ =>
    obtain ⟨t', ht'⟩ := hheld t₀ r₀ hw
    refine ⟨t', r₀, ht', ?_⟩
    by_contra hc
    obtain ⟨r', hr'⟩ := Option.ne_none_iff_exists'.mp hc
    have hlt := hup t' r' r₀ hr' ht'
    have hle := hmax t'
    simp only [height, hr', hw, Option.elim_some] at hle
    omega
