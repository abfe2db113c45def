import Mathlib.Data.List.Basic
import Mathlib.Data.List.Infix

/-!
# Radix trees in a heap

A radix tree whose nodes live in a heap: `g a i` is the entry `i` of the node at address `a`, and
`next e` the address an entry points to, if it points anywhere. A path of indices leads from a
root to a node. The tree is *separated* up to a depth when different paths lead to different
addresses; then writing one entry changes the tree at the paths through that entry only.

## Main definitions

* `node next g r p`: the address at the end of the path `p` from `r`
* `setEntry g a i e`: the heap with the entry `i` of `a` replaced
* `Separated next g r n`: paths of length at most `n` from `r` lead to different addresses

## Main results

* `node_congr`: the tree depends on its own nodes only
* `node_setEntry_of_not_prefix`, `node_clear`, `node_fill`: the tree after writing an entry
* `Separated.clear`, `Separated.fill`: writing an entry keeps the tree separated
-/

namespace Radix

variable {A I E : Type} {next : E → Option A}

/-- The address at the end of the path `p` from `r`. -/
def node (next : E → Option A) (g : A → I → E) : A → List I → Option A
  | r, [] => some r
  | r, i :: p => (next (g r i)).bind fun a => node next g a p

/-- The heap `g` with the entry `i` of `a` replaced by `e`. -/
def setEntry [DecidableEq A] [DecidableEq I] (g : A → I → E) (a : A) (i : I) (e : E) : A → I → E :=
  fun b j => if b = a ∧ j = i then e else g b j

/-- Different paths of length at most `n` lead to different addresses. -/
def Separated (next : E → Option A) (g : A → I → E) (r : A) (n : ℕ) : Prop :=
  ∀ p q a, p.length ≤ n → q.length ≤ n → node next g r p = some a → node next g r q = some a → p = q

@[simp] theorem node_nil (g : A → I → E) (r : A) : node next g r [] = some r := rfl

theorem node_cons (g : A → I → E) (r : A) (i : I) (p : List I) :
    node next g r (i :: p) = (next (g r i)).bind fun a => node next g a p := rfl

theorem node_append (g : A → I → E) (p q : List I) :
    ∀ r, node next g r (p ++ q) = (node next g r p).bind fun a => node next g a q := by
  induction p with
  | nil => intro r; rfl
  | cons i p ih =>
    intro r
    simp only [List.cons_append, node_cons, Option.bind_assoc, ih]

theorem node_concat (g : A → I → E) (r : A) (p : List I) (i : I) :
    node next g r (p ++ [i]) = (node next g r p).bind fun a => next (g a i) := by
  rw [node_append]
  congr 1
  funext a
  simp [node_cons]

/-- The subtree below an entry is separated. -/
theorem Separated.child {g : A → I → E} {r a : A} {n : ℕ} {i : I}
    (h : Separated next g r (n + 1)) (ha : next (g r i) = some a) : Separated next g a n := by
  intro p q b hp hq hpb hqb
  have hcons := h (i :: p) (i :: q) b (by simpa using hp) (by simpa using hq)
    (by simpa [node_cons, ha] using hpb) (by simpa [node_cons, ha] using hqb)
  exact (List.cons.injEq .. ▸ hcons).2

/-- **The tree depends on its own nodes only**: heaps that agree on the nodes above depth `n` have
the same nodes up to depth `n`. -/
theorem node_congr {g g' : A → I → E} {r : A} {n : ℕ}
    (h : ∀ p a i, p.length < n → node next g r p = some a → g' a i = g a i) :
    ∀ p : List I, p.length ≤ n → node next g' r p = node next g r p := by
  intro p
  induction p using List.reverseRecOn with
  | nil => intro _; rfl
  | append_singleton p i ih =>
    intro hp
    rw [List.length_append, List.length_singleton] at hp
    rw [node_concat, node_concat, ih (by omega)]
    cases hpa : node next g r p with
    | none => rfl
    | some a => simp only [Option.bind_some, h p a i (by omega) hpa]

section SetEntry

variable [DecidableEq A] [DecidableEq I] {g : A → I → E} {r a : A} {n : ℕ} {q : List I}
    {i : I} {e : E}

@[simp] theorem setEntry_self : setEntry g a i e a i = e := by simp [setEntry]

theorem setEntry_of_ne {b : A} {j : I} (h : b ≠ a ∨ j ≠ i) : setEntry g a i e b j = g b j := by
  unfold setEntry
  rw [if_neg]
  rintro ⟨rfl, rfl⟩
  simp at h

/-- Writing an entry changes the tree only at the paths through that entry. -/
theorem node_setEntry_of_not_prefix (hs : Separated next g r n) (hq : q.length ≤ n)
    (ha : node next g r q = some a) :
    ∀ p : List I, p.length ≤ n → ¬ (q ++ [i]) <+: p →
      node next (setEntry g a i e) r p = node next g r p := by
  intro p
  induction p using List.reverseRecOn with
  | nil => intro _ _; rfl
  | append_singleton p j ih =>
    intro hp hnot
    rw [List.length_append, List.length_singleton] at hp
    have hpre : ¬ (q ++ [i]) <+: p := fun h => hnot (h.trans (List.prefix_append p [j]))
    rw [node_concat, node_concat, ih (by omega) hpre]
    cases hpb : node next g r p with
    | none => rfl
    | some b =>
      simp only [Option.bind_some]
      rw [setEntry_of_ne]
      by_contra hcon
      rw [not_or, not_not, not_not] at hcon
      obtain ⟨rfl, rfl⟩ := hcon
      -- `b` is the written node, so the path to it is `q`
      have hpq := hs p q b (by omega) hq hpb ha
      exact hnot (hpq ▸ List.prefix_refl _)

/-- Below the written entry the tree is the tree below its new target. -/
theorem node_setEntry_append (hs : Separated next g r n) (hq : q.length ≤ n)
    (ha : node next g r q = some a) (p : List I) :
    node next (setEntry g a i e) r (q ++ i :: p) =
      (next e).bind fun b => node next (setEntry g a i e) b p := by
  have hnot : ¬ (q ++ [i]) <+: q := fun h => by
    have hlen := h.length_le
    rw [List.length_append, List.length_singleton] at hlen
    omega
  rw [node_append, node_setEntry_of_not_prefix hs hq ha q hq hnot, ha]
  simp [node_cons]

/-- Clearing an entry removes the paths through it. -/
theorem node_clear (hs : Separated next g r n) (hq : q.length ≤ n) (ha : node next g r q = some a)
    (he : next e = none) {p : List I} (hp : p.length ≤ n) :
    node next (setEntry g a i e) r p = if (q ++ [i]) <+: p then none else node next g r p := by
  split
  · next h =>
    obtain ⟨s, rfl⟩ := h
    rw [List.append_assoc, List.singleton_append, node_setEntry_append hs hq ha, he]
    rfl
  · next h => exact node_setEntry_of_not_prefix hs hq ha p hp h

/-- Pointing an empty entry to a node without children adds exactly the path to that node. -/
theorem node_fill {b : A} (hs : Separated next g r n) (hq : q.length ≤ n)
    (ha : node next g r q = some a) (hold : next (g a i) = none) (he : next e = some b)
    (hab : b ≠ a) (hb : q.length + 1 < n → ∀ j, next (g b j) = none) {p : List I}
    (hp : p.length ≤ n) :
    node next (setEntry g a i e) r p = if p = q ++ [i] then some b else node next g r p := by
  split
  · next h =>
    subst h
    rw [node_setEntry_append hs hq ha, he]
    rfl
  · next h =>
    by_cases hpre : (q ++ [i]) <+: p
    · obtain ⟨s, rfl⟩ := hpre
      have hold' : node next g r (q ++ [i] ++ s) = none := by
        rw [node_append, node_concat, ha]
        simp [hold]
      rw [hold', List.append_assoc, List.singleton_append, node_setEntry_append hs hq ha, he]
      cases s with
      | nil => simp at h
      | cons j s =>
        have hlt : q.length + 1 < n := by
          simp only [List.length_append, List.length_cons, List.length_nil] at hp
          omega
        simp only [Option.bind_some, node_cons]
        rw [setEntry_of_ne (Or.inl hab), hb hlt j]
        rfl
    · exact node_setEntry_of_not_prefix hs hq ha p hp hpre

/-- Clearing an entry keeps the tree separated. -/
theorem Separated.clear (hs : Separated next g r n) (hq : q.length ≤ n)
    (ha : node next g r q = some a) (he : next e = none) :
    Separated next (setEntry g a i e) r n := by
  intro p p' b hp hp' hpb hpb'
  rw [node_clear hs hq ha he hp] at hpb
  rw [node_clear hs hq ha he hp'] at hpb'
  split at hpb
  · simp at hpb
  · split at hpb'
    · simp at hpb'
    · exact hs p p' b hp hp' hpb hpb'

/-- Pointing an empty entry to a new node without children keeps the tree separated. -/
theorem Separated.fill {b : A} (hs : Separated next g r n) (hq : q.length ≤ n)
    (ha : node next g r q = some a) (hold : next (g a i) = none) (he : next e = some b)
    (hnew : ∀ p, p.length ≤ n → node next g r p ≠ some b)
    (hb : q.length + 1 < n → ∀ j, next (g b j) = none) :
    Separated next (setEntry g a i e) r n := by
  have hab : b ≠ a := fun h => hnew q hq (h ▸ ha)
  intro p p' c hp hp' hpc hpc'
  rw [node_fill hs hq ha hold he hab hb hp] at hpc
  rw [node_fill hs hq ha hold he hab hb hp'] at hpc'
  split at hpc <;> split at hpc'
  · next h h' => rw [h, h']
  · exact absurd (hpc' ▸ hpc ▸ rfl) (hnew p' hp')
  · exact absurd (hpc ▸ hpc' ▸ rfl) (hnew p hp)
  · exact hs p p' c hp hp' hpc hpc'

end SetEntry

end Radix
