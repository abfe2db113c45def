import Mathlib.Data.Set.Basic
import Mathlib.Data.Set.Insert
import Mathlib.Data.List.Nodup

/-!
# Ownership of the cells of a shared heap

A heap whose free cells are kept on a list, shared by clients that each own a set of cells. A
client *acts locally* when the cells it owns before and after, together with the free ones, are the
same cells, and it writes no other cell. Local actions compose, and a client's local action leaves
every other client's cells alone and disjoint from its own: this is the argument by which isolation
of the clients follows from what each function of one client does.

## Main definitions

* `Store A C`: a heap with its free list
* `Store.Owned s own`: the free list has no repetition and shares no cell with `own`
* `Store.Local s own s' own'`: a client that owned `own` acted locally and owns `own'`

## Main results

* `Store.Local.refl`, `Store.Local.trans`: local actions compose
* `Store.Local.frame`: a client may own more than its action uses
* `Store.Local.other_owned`: the other clients do not notice
-/

/-- A heap of cells with contents in `C`, and the list of its free cells. -/
structure Store (A C : Type) where
  free : List A
  heap : A → C

namespace Store

variable {A C : Type} {s s' s'' : Store A C} {own own' own'' other : Set A}

/-- The free list has no repetition, and no free cell is in `own`. -/
structure Owned (s : Store A C) (own : Set A) : Prop where
  nodup : s.free.Nodup
  disjoint : ∀ a ∈ s.free, a ∉ own

/-- A client that owned `own` owns `own'` now: no cell appeared or disappeared, and the cells of
others are as they were. -/
structure Local (s : Store A C) (own : Set A) (s' : Store A C) (own' : Set A) : Prop where
  owned : Owned s' own'
  total : ∀ a, (a ∈ own' ∨ a ∈ s'.free) ↔ (a ∈ own ∨ a ∈ s.free)
  outside : ∀ a, a ∉ own → a ∉ s.free → s'.heap a = s.heap a

theorem Owned.mono (h : Owned s own) (hsub : own' ⊆ own) : Owned s own' :=
  ⟨h.nodup, fun a ha hown => h.disjoint a ha (hsub hown)⟩

theorem Local.refl (h : Owned s own) : Local s own s own := ⟨h, fun _ => Iff.rfl, fun _ _ _ => rfl⟩

theorem Local.trans (h : Local s own s' own') (h' : Local s' own' s'' own'') :
    Local s own s'' own'' where
  owned := h'.owned
  total a := (h'.total a).trans (h.total a)
  outside a hown hfree := by
    have hnot : ¬ (a ∈ own' ∨ a ∈ s'.free) := fun hc => by
      rcases (h.total a).mp hc with hc | hc
      · exact hown hc
      · exact hfree hc
    rw [not_or] at hnot
    rw [h'.outside a hnot.1 hnot.2, h.outside a hown hfree]

/-- Cells that a client's action neither owns nor finds free stay apart from it. -/
theorem Local.disjoint_other (h : Local s own s' own') (hfree : ∀ a ∈ other, a ∉ s.free)
    (hown : ∀ a ∈ other, a ∉ own) : ∀ a ∈ other, a ∉ own' ∧ a ∉ s'.free := by
  intro a ha
  rw [← not_or]
  intro hc
  rcases (h.total a).mp hc with hc | hc
  · exact hown a ha hc
  · exact hfree a ha hc

/-- The other clients still own their cells. -/
theorem Local.other_owned (h : Local s own s' own') (hs : Owned s other)
    (hown : ∀ a ∈ other, a ∉ own) : Owned s' other :=
  ⟨h.owned.nodup, fun a ha hother =>
    (h.disjoint_other (fun b hb hbf => hs.disjoint b hbf hb) hown a hother).2 ha⟩

/-- **The frame rule**: a client may own cells its action does not use. -/
theorem Local.frame (h : Local s own s' own') (hs : Owned s other) (hown : ∀ a ∈ other, a ∉ own) :
    Local s (own ∪ other) s' (own' ∪ other) where
  owned := by
    refine ⟨h.owned.nodup, fun a ha => ?_⟩
    rintro (hc | hc)
    · exact h.owned.disjoint a ha hc
    · exact (h.other_owned hs hown).disjoint a ha hc
  total a := by
    have ht := h.total a
    simp only [Set.mem_union]
    tauto
  outside a hno hfree := by
    rw [Set.mem_union, not_or] at hno
    exact h.outside a hno.1 hfree

end Store
