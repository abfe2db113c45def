import Mathlib.Data.List.Basic
import Mathlib.Data.Nat.ModEq
import Mathlib.Logic.Function.Basic

/-!
# Ring buffers with counters that wrap

A ring of `N` places with two counters modulo `W`: the entries put in so far, and those taken out.
The place of an entry is its number modulo `N`. The counters may wrap as often as they like, as long
as `N` divides `W`; the difference of the counters is the number of entries in the ring as long as
`N` is smaller than `W`, so that a full ring is not taken for an empty one.

## Main definitions

* `ringContents N W data r w`: the entries in the ring
* `RingHolds N W data r w l`: the ring holds the entries `l`

## Main results

* `RingHolds.empty_iff`, `RingHolds.full_iff`: the tests on the counters
* `RingHolds.push`, `RingHolds.pop`, `RingHolds.unpush`: one entry more, one entry less at either
  end
* `RingHolds.split`: the entries in two parts
-/

variable {α : Type} {N W r w : Nat} {data : Nat → α} {l l' : List α} {x : α}

/-- The entries in the ring, oldest first. -/
def ringContents (N W : Nat) (data : Nat → α) (r w : Nat) : List α :=
  (List.range ((w + (W - r)) % W)).map fun i => data ((r + i) % N)

/-- **The ring holds the entries `l`**: `r` entries have been taken out and `w` put in, modulo
`W`. -/
structure RingHolds (N W : Nat) (data : Nat → α) (r w : Nat) (l : List α) : Prop where
  lt : r < W
  length : l.length ≤ N
  count : w = (r + l.length) % W
  get : ∀ i (h : i < l.length), data ((r + i) % N) = l[i]

namespace RingHolds

/-- The number of entries is the difference of the counters. -/
theorem length_eq (h : RingHolds N W data r w l) (hlt : N < W) : (w + (W - r)) % W = l.length := by
  have hr := h.lt
  have hl := h.length
  rw [h.count]
  rcases Nat.lt_or_ge (r + l.length) W with hw | hw
  · rw [Nat.mod_eq_of_lt hw, show r + l.length + (W - r) = l.length + W by omega, Nat.add_mod_right,
      Nat.mod_eq_of_lt (by omega)]
  · -- the write counter has wrapped once more than the read counter
    have hmod : (r + l.length) % W = r + l.length - W := by
      rw [Nat.mod_eq_sub_mod hw, Nat.mod_eq_of_lt (by omega)]
    rw [hmod, show r + l.length - W + (W - r) = l.length by omega, Nat.mod_eq_of_lt (by omega)]

theorem eq_contents (h : RingHolds N W data r w l) (hlt : N < W) :
    ringContents N W data r w = l := by
  unfold ringContents
  rw [h.length_eq hlt]
  apply List.ext_getElem
  · rw [List.length_map, List.length_range]
  · intro i hi hi'
    rw [List.getElem_map, List.getElem_range]
    exact h.get i hi'

/-- A new ring. -/
theorem nil (hW : 0 < W) (data : Nat → α) : RingHolds N W data 0 0 [] where
  lt := hW
  length := Nat.zero_le _
  count := (Nat.zero_mod W).symm
  get i hi := absurd hi (Nat.not_lt_zero i)

/-- **The ring is empty** when the counters agree. -/
theorem empty_iff (h : RingHolds N W data r w l) (hlt : N < W) : r = w ↔ l = [] := by
  have hr := h.lt
  have hlen := h.length_eq hlt
  constructor
  · rintro rfl
    rw [show r + (W - r) = W by omega, Nat.mod_self] at hlen
    exact List.eq_nil_of_length_eq_zero hlen.symm
  · rintro rfl
    have := h.count
    rw [List.length_nil, Nat.add_zero, Nat.mod_eq_of_lt hr] at this
    exact this.symm

/-- **The ring is full** when the counters differ by the number of places. -/
theorem full_iff (h : RingHolds N W data r w l) (hlt : N < W) : w = (r + N) % W ↔ l.length = N := by
  have hr := h.lt
  have hl := h.length
  constructor
  · intro hw
    -- the numbers of entries are below `W`, so that equal remainders are equal numbers
    have hmod : r + l.length ≡ r + N [MOD W] := h.count.symm.trans hw
    have := Nat.ModEq.add_left_cancel' r hmod
    rwa [Nat.ModEq, Nat.mod_eq_of_lt (by omega), Nat.mod_eq_of_lt hlt] at this
  · intro hN
    rw [h.count, hN]

/-- The place of the next entry. -/
theorem place (h : RingHolds N W data r w l) (hdvd : N ∣ W) : w % N = (r + l.length) % N := by
  rw [h.count, Nat.mod_mod_of_dvd _ hdvd]

/-- **One entry more.** -/
theorem push (h : RingHolds N W data r w l) (hdvd : N ∣ W) (hroom : l.length < N) (x : α) :
    RingHolds N W (Function.update data (w % N) x) r ((w + 1) % W) (l ++ [x]) where
  lt := h.lt
  length := by
    rw [List.length_append, List.length_singleton]
    exact hroom
  count := by
    rw [h.count, Nat.mod_add_mod, List.length_append, List.length_singleton, Nat.add_assoc]
  get i hi := by
    rw [List.length_append, List.length_singleton] at hi
    rw [h.place hdvd]
    rcases Nat.lt_or_eq_of_le (Nat.le_of_lt_succ hi) with hlt | rfl
    · -- another place than the new one
      have hne : (r + i) % N ≠ (r + l.length) % N := by
        intro heq
        have := Nat.ModEq.add_left_cancel' (n := N) r heq
        rw [Nat.ModEq, Nat.mod_eq_of_lt (by omega), Nat.mod_eq_of_lt hroom] at this
        omega
      rw [Function.update_of_ne hne, List.getElem_append_left hlt]
      exact h.get i hlt
    · rw [Function.update_self, List.getElem_append_right (Nat.le_refl _)]
      simp

/-- **One entry less**, the oldest one. -/
theorem pop (h : RingHolds N W data r w (x :: l)) (hdvd : N ∣ W) :
    data (r % N) = x ∧ RingHolds N W data ((r + 1) % W) w l := by
  have hlen := h.length
  rw [List.length_cons] at hlen
  refine ⟨h.get 0 (Nat.succ_pos _), Nat.mod_lt _ (Nat.lt_of_le_of_lt (Nat.zero_le r)
    h.lt), by omega, ?_, ?_⟩
  · rw [h.count, List.length_cons, Nat.mod_add_mod, Nat.add_assoc, Nat.add_comm 1]
  · intro i hi
    have hplace : ((r + 1) % W + i) % N = (r + (i + 1)) % N := by
      rw [Nat.add_mod, Nat.mod_mod_of_dvd _ hdvd, ← Nat.add_mod, Nat.add_assoc, Nat.add_comm 1]
    rw [hplace, h.get (i + 1) (Nat.succ_lt_succ hi)]
    rfl

/-- **The next place may be written** before it is counted. -/
theorem write (h : RingHolds N W data r w l) (hdvd : N ∣ W) (hroom : l.length < N) (x : α) :
    RingHolds N W (Function.update data (w % N) x) r w l where
  lt := h.lt
  length := h.length
  count := h.count
  get i hi := by
    have hlen : i < (l ++ [x]).length := by
      rw [List.length_append]
      omega
    rw [(h.push hdvd hroom x).get i hlen, List.getElem_append_left hi]

/-- **The newest entry is taken back**. -/
theorem unpush (h : RingHolds N W data r w (l ++ [x])) (hdvd : N ∣ W) :
    data ((w + (W - 1)) % W % N) = x ∧ RingHolds N W data r ((w + (W - 1)) % W) l := by
  have hr := h.lt
  have hlen := h.length
  rw [List.length_append, List.length_singleton] at hlen
  have hw : (w + (W - 1)) % W = (r + l.length) % W := by
    rw [h.count, Nat.mod_add_mod, List.length_append, List.length_singleton,
      show r + (l.length + 1) + (W - 1) = r + l.length + W by omega, Nat.add_mod_right]
  have hlast := h.get l.length (by simp)
  rw [List.getElem_append_right (Nat.le_refl _)] at hlast
  refine ⟨?_, hr, by omega, hw, fun i hi => ?_⟩
  · rw [hw, Nat.mod_mod_of_dvd _ hdvd, hlast]
    simp
  · rw [h.get i (by rw [List.length_append]; omega), List.getElem_append_left hi]

/-- **A counter between the two** parts the entries. -/
theorem split (h : RingHolds N W data r w (l ++ l')) (hdvd : N ∣ W) :
    RingHolds N W data r ((r + l.length) % W) l ∧ RingHolds N W data ((r + l.length) % W) w l' := by
  have hlen := h.length
  rw [List.length_append] at hlen
  refine ⟨⟨h.lt, by omega, rfl, fun i hi => ?_⟩,
    ⟨Nat.mod_lt _ (Nat.lt_of_le_of_lt (Nat.zero_le r) h.lt), by omega, ?_, fun i hi => ?_⟩⟩
  · rw [h.get i (by rw [List.length_append]; omega), List.getElem_append_left hi]
  · rw [h.count, List.length_append, Nat.mod_add_mod, Nat.add_assoc]
  · have hplace : ((r + l.length) % W + i) % N = (r + (l.length + i)) % N := by
      rw [Nat.add_mod, Nat.mod_mod_of_dvd _ hdvd, ← Nat.add_mod, Nat.add_assoc]
    rw [hplace, h.get (l.length + i) (by rw [List.length_append]; omega),
      List.getElem_append_right (Nat.le_add_right _ _)]
    simp

end RingHolds
