import Mathlib.Algebra.BigOperators.Group.Finset.Basic
import Mathlib.Algebra.BigOperators.Ring.Finset
import Mathlib.Data.Int.Basic
import Mathlib.Tactic.Push

/-!
# Counters

A counter of a program is kept by hand: it goes up and down at the places where the thing it counts
appears and goes. The number that it should show is a tally over a finite set; the lemmas say how
the tally changes when one member changes.

## Main definitions

* `tally S p`: the number of members of `S` that pass the test `p`

## Main results

* `tally_congr`, `tally_move`: no member changes, or one of them
* `tally_lt`, `card_le_tally`: how a tally compares with the size of the set
-/

variable {ι : Type} {S : Finset ι} {p p' : ι → Bool} {c : ι}

/-- The number of members of `S` that pass the test. -/
def tally (S : Finset ι) (p : ι → Bool) : Int := ((S.filter fun i => p i = true).card : Int)

theorem tally_eq_sum (S : Finset ι) (p : ι → Bool) : tally S p = ∑ i ∈ S, if p i = true then 1
    else 0 := by
  rw [tally, Finset.card_filter]
  push_cast
  rfl

theorem tally_congr (h : ∀ d ∈ S, p' d = p d) : tally S p' = tally S p := by
  unfold tally
  rw [Finset.filter_congr fun d hd => by rw [h d hd]]

/-- **One member changes.** -/
theorem tally_move [DecidableEq ι] (hc : c ∈ S) (h : ∀ d ∈ S, d ≠ c → p' d = p d) :
    tally S p' = tally S p - (if p c = true then 1 else 0) + if p' c = true then 1 else 0 := by
  rw [tally_eq_sum, tally_eq_sum, ← Finset.add_sum_erase S _ hc, ← Finset.add_sum_erase S _ hc]
  have hrest : (∑ i ∈ S.erase c, if p' i = true then (1 : Int) else 0) =
      ∑ i ∈ S.erase c, if p i = true then 1 else 0 := by
    apply Finset.sum_congr rfl
    intro d hd
    rw [h d (Finset.mem_of_mem_erase hd) (Finset.ne_of_mem_erase hd)]
  rw [hrest]
  omega

theorem tally_le (S : Finset ι) (p : ι → Bool) : tally S p ≤ S.card :=
  Int.ofNat_le.mpr (Finset.card_filter_le S _)

/-- A member that does not pass the test is not counted. -/
theorem tally_lt (hc : c ∈ S) (hp : p c = false) : tally S p < S.card := by
  apply Int.ofNat_lt.mpr
  apply Finset.card_lt_card
  refine ⟨Finset.filter_subset _ S, fun hsub => ?_⟩
  have := (Finset.mem_filter.mp (hsub hc)).2
  rw [hp] at this
  cases this

/-- When all members are counted, all of them pass the test. -/
theorem all_of_card_le_tally (h : (S.card : Int) ≤ tally S p) (hc : c ∈ S) : p c = true := by
  by_contra hne
  have := tally_lt hc (Bool.eq_false_iff.mpr hne)
  omega

/-- A member that passes the test is counted. -/
theorem tally_pos (hc : c ∈ S) (hp : p c = true) : 0 < tally S p :=
  Int.ofNat_lt.mpr (Finset.card_pos.mpr ⟨c, Finset.mem_filter.mpr ⟨hc, hp⟩⟩)

/-- All members pass the test. -/
theorem card_le_tally (h : ∀ d ∈ S, p d = true) : (S.card : Int) ≤ tally S p := by
  unfold tally
  rw [Finset.filter_true_of_mem h]

/-- Nobody passes the test. -/
theorem tally_eq_zero (h : ∀ d ∈ S, p d = false) : tally S p = 0 := by
  unfold tally
  rw [Finset.filter_eq_empty_iff.mpr fun d hd => by rw [h d hd]; exact Bool.false_ne_true]
  rfl
