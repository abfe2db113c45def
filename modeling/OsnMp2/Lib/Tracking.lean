import Mathlib.Data.List.Nodup
import Mathlib.Data.Set.Card

/-!
# Two lists that keep track of a set

A cache keeps a list of what is in it and a list of what it has put aside. The first list may only
name elements of the set that it stands for, the second only elements outside of it, and neither
names an element twice. Here are the changes that keep the lists right.

The places where things are put aside are numbered, and a map says which numbers are taken: those
that the list of places names, each once.

## Main definitions

* `Tracks`: the lists `R` and `S` keep track of the set `M`
* `Marks`: the map `f` marks what the list `l` names

## Main results

* `Tracks.erase`, `Tracks.restrict`, `Tracks.putAside`: an element goes, or is put aside
* `Tracks.takeBack`, `Tracks.insert`: an element comes back, or comes in
* `Marks.take`, `Marks.release`: an element is marked, or not any longer
* `Marks.ncard`: how many are marked
-/

variable {α : Type} {M N : Set α} {R S : List α} {a : α}

/-- **The list `R` names elements of the set `M` and the list `S` elements outside of it**, each at
most once. -/
structure Tracks (M : Set α) (R S : List α) : Prop where
  nodup : R.Nodup
  inside : ∀ a ∈ R, a ∈ M
  nodup_aside : S.Nodup
  outside : ∀ a ∈ S, a ∉ M

namespace Tracks

theorem disjoint (h : Tracks M R S) {b : α} (ha : a ∈ R) (hb : b ∈ S) : a ≠ b := by
  rintro rfl
  exact h.outside a hb (h.inside a ha)

/-- The set matters on the two lists only. -/
theorem congr (h : Tracks M R S) (hR : ∀ a ∈ R, a ∈ N) (hS : ∀ a ∈ S, a ∉ N) : Tracks N R S :=
  ⟨h.nodup, hR, h.nodup_aside, hS⟩

theorem restrict (h : Tracks M R S) (hR : ∀ a ∈ R, a ∈ N) : Tracks (M ∩ N) R S :=
  h.congr (fun a ha => ⟨h.inside a ha, hR a ha⟩) fun a ha hc => h.outside a ha hc.1

theorem filter (h : Tracks M R S) (p : α → Bool) : Tracks M (R.filter p) S where
  nodup := h.nodup.filter p
  inside a ha := h.inside a (List.mem_of_mem_filter ha)
  nodup_aside := h.nodup_aside
  outside := h.outside

/-- An element outside of the set is put aside. -/
theorem putAside (h : Tracks M R S) (hM : a ∉ M) (hS : a ∉ S) : Tracks M R (S ++ [a]) where
  nodup := h.nodup
  inside := h.inside
  nodup_aside := by
    rw [List.nodup_append]
    refine ⟨h.nodup_aside, List.nodup_singleton a, fun b hb c hc => ?_⟩
    rw [List.mem_singleton.mp hc]
    rintro rfl
    exact hS hb
  outside b hb := by
    rcases List.mem_append.mp hb with hb | hb
    · exact h.outside b hb
    · rw [List.mem_singleton.mp hb]
      exact hM

/-- An element that is not put aside comes in. -/
theorem insert (h : Tracks M R S) (hM : a ∉ M) (hS : a ∉ S) :
    Tracks (Insert.insert a M) (R ++ [a]) S where
  nodup := by
    rw [List.nodup_append]
    refine ⟨h.nodup, List.nodup_singleton a, fun b hb c hc => ?_⟩
    rw [List.mem_singleton.mp hc]
    rintro rfl
    exact hM (h.inside b hb)
  inside b hb := by
    rcases List.mem_append.mp hb with hb | hb
    · exact Set.mem_insert_of_mem a (h.inside b hb)
    · rw [List.mem_singleton.mp hb]
      exact Set.mem_insert a M
  nodup_aside := h.nodup_aside
  outside b hb hc := by
    rcases Set.mem_insert_iff.mp hc with rfl | hc
    · exact hS hb
    · exact h.outside b hb hc

section Erase

variable [DecidableEq α]

/-- An element is taken off the first list. -/
theorem erase (h : Tracks M R S) (a : α) : Tracks M (R.erase a) S where
  nodup := h.nodup.erase a
  inside b hb := h.inside b (List.mem_of_mem_erase hb)
  nodup_aside := h.nodup_aside
  outside := h.outside

/-- An element is taken off the second list. -/
theorem takeBack (h : Tracks M R S) (a : α) : Tracks M R (S.erase a) where
  nodup := h.nodup
  inside := h.inside
  nodup_aside := h.nodup_aside.erase a
  outside b hb := h.outside b (List.mem_of_mem_erase hb)

theorem ne_of_mem_erase (h : Tracks M R S) {b : α} (hb : b ∈ R.erase a) : b ≠ a :=
  (h.nodup.mem_erase_iff.mp hb).1

end Erase

end Tracks

/-! ## A map of what is taken -/

/-- **The map `f` marks what the list `l` names**, and the list names nothing twice. -/
structure Marks (f : α → Bool) (l : List α) : Prop where
  marked : ∀ a, f a = true ↔ a ∈ l
  nodup : l.Nodup

namespace Marks

variable {f : α → Bool} {l l₁ l₂ : List α}

theorem nil : Marks (fun _ : α => false) [] where
  marked a := by simp
  nodup := List.nodup_nil

variable [DecidableEq α]

/-- An element that is not marked is taken. -/
theorem take (h : Marks f l) (ha : f a = false) : Marks (Function.update f a true) (l ++ [a]) where
  marked b := by
    by_cases hb : b = a
    · subst hb
      simp
    · rw [Function.update_of_ne hb, h.marked]
      simp [hb]
  nodup := by
    rw [List.nodup_append]
    refine ⟨h.nodup, List.nodup_singleton a, fun b hb c hc => ?_⟩
    rw [List.mem_singleton.mp hc]
    rintro rfl
    rw [(h.marked b).mpr hb] at ha
    cases ha

/-- An element that is marked is given back. -/
theorem release (h : Marks f (l₁ ++ a :: l₂)) : Marks (Function.update f a false) (l₁ ++ l₂) where
  marked b := by
    have hnd := List.nodup_middle.mp h.nodup
    by_cases hb : b = a
    · subst hb
      rw [Function.update_self]
      exact iff_of_false (by decide) (List.nodup_cons.mp hnd).1
    · rw [Function.update_of_ne hb, h.marked]
      simp [hb]
  nodup := (List.nodup_cons.mp (List.nodup_middle.mp h.nodup)).2

/-- As many elements are marked as the list has. -/
theorem ncard (h : Marks f l) : {a | f a = true}.ncard = l.length := by
  have hset : {a | f a = true} = (l.toFinset : Set α) := by
    ext a
    simp [h.marked]
  rw [hset, Set.ncard_coe_finset, List.toFinset_card_of_nodup h.nodup]

end Marks
