import Mathlib.Data.List.Basic

/-!
# When something happened last

A history is a list of events, the latest one at its end. Its events are numbered from one on.

## Main definitions

* `lastAt L a`: the number of the last event `a` in the history `L`, zero when there is none

## Main results

* `lastAt_append_self`, `lastAt_append_of_ne`: the history with one more event
* `lastAt_le_length`: the bound
-/

variable {α : Type} [DecidableEq α] {L : List α} {a b : α}

/-- The number of the last event `a`, from one on; zero when there is none. -/
def lastAt (L : List α) (a : α) : Nat := L.length - L.reverse.idxOf a

theorem lastAt_append_self (L : List α) (a : α) : lastAt (L ++ [a]) a = L.length + 1 := by
  unfold lastAt
  rw [List.reverse_append, List.reverse_singleton, List.singleton_append, List.idxOf_cons_self,
    List.length_append, List.length_singleton]
  rfl

theorem lastAt_append_of_ne (L : List α) (h : b ≠ a) : lastAt (L ++ [b]) a = lastAt L a := by
  unfold lastAt
  rw [List.reverse_append, List.reverse_singleton, List.singleton_append, List.idxOf_cons_ne _ h,
    List.length_append, List.length_singleton]
  omega

theorem lastAt_le_length (L : List α) (a : α) : lastAt L a ≤ L.length := Nat.sub_le _ _
