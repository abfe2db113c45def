import Mathlib.Data.List.Chain
import Mathlib.Data.List.Nodup

/-!
# Free lists in address order

An arena of memory, of which some spans are free and some are in use. The free spans are kept in the
order of their addresses, and two of them never touch: a span that is given back is joined with its
neighbours. The spans in use are disjoint from each other and from the free ones.

The list itself is linked by pointers. A circular list is a chain from its entry back to it.

## Main definitions

* `Span`: consecutive addresses
* `Arena`: the free spans and those in use
* `Linked`: a list of nodes, each of which points to the one behind it

## Main results

* `Arena.take`, `Arena.split`: a free span is used, or the end of one
* `Arena.release`: a span is given back, and joined with what it touches
* `Arena.grow`: the arena gets more memory
* `Linked.splice`, `Linked.rotate`: another end of a list, and another entry of a circular one
-/

/-- Consecutive addresses. -/
structure Span where
  start : Nat
  len : Nat
deriving DecidableEq

namespace Span

/-- The address behind the span. -/
def stop (b : Span) : Nat := b.start + b.len

/-- Two spans have no address in common. -/
def Disjoint (a b : Span) : Prop := a.stop ≤ b.start ∨ b.stop ≤ a.start

theorem Disjoint.symm {a b : Span} (h : a.Disjoint b) : b.Disjoint a := Or.symm h

end Span

/-- **The free spans and the spans in use** of the memory from `lo` up to `hi`. -/
structure Arena (lo hi : Nat) (free used : List Span) : Prop where
  sorted : free.Pairwise fun a b => a.stop < b.start
  disjoint : used.Pairwise Span.Disjoint
  cross : ∀ f ∈ free, ∀ u ∈ used, f.Disjoint u
  inside : ∀ b, b ∈ free ∨ b ∈ used → lo ≤ b.start ∧ 0 < b.len ∧ b.stop ≤ hi

namespace Arena

variable {lo hi hi' : Nat} {free free' used used' A B M u₁ u₂ : List Span} {a b c f : Span}

theorem nil (lo hi : Nat) : Arena lo hi [] [] where
  sorted := .nil
  disjoint := .nil
  cross _ hf := absurd hf List.not_mem_nil
  inside _ hb := hb.elim (fun hb => absurd hb List.not_mem_nil) fun hb => absurd hb List.not_mem_nil

/-- The order of the spans in use does not matter. -/
theorem perm (h : Arena lo hi free used) (hp : used.Perm used') : Arena lo hi free used' where
  sorted := h.sorted
  disjoint := (hp.pairwise_iff fun hd => hd.symm).mp h.disjoint
  cross f hf u hu := h.cross f hf u (hp.mem_iff.mpr hu)
  inside b hb := h.inside b (hb.imp_right hp.mem_iff.mpr)

/-- The arena gets more memory. -/
theorem grow (h : Arena lo hi free used) (hle : hi ≤ hi') : Arena lo hi' free used where
  sorted := h.sorted
  disjoint := h.disjoint
  cross := h.cross
  inside b hb := ⟨(h.inside b hb).1, (h.inside b hb).2.1, (h.inside b hb).2.2.trans hle⟩

/-- Memory behind the arena is used. -/
theorem append (h : Arena lo hi free used) (hlo : lo ≤ b.start) (hb : hi ≤ b.start)
    (hlen : 0 < b.len) : Arena lo b.stop free (b :: used) where
  sorted := h.sorted
  disjoint := List.pairwise_cons.mpr ⟨fun u hu => Or.inr ((h.inside u (Or.inr hu)).2.2.trans hb),
    h.disjoint⟩
  cross f hf u hu := by
    rcases List.mem_cons.mp hu with rfl | hu
    · exact Or.inl ((h.inside f (Or.inl hf)).2.2.trans hb)
    · exact h.cross f hf u hu
  inside c hc := by
    have hgrown := h.grow (hb.trans (Nat.le_add_right b.start b.len))
    rcases hc with hc | hc
    · exact hgrown.inside c (Or.inl hc)
    · rcases List.mem_cons.mp hc with rfl | hc
      · exact ⟨hlo, hlen, Nat.le_refl _⟩
      · exact hgrown.inside c (Or.inr hc)

/-- The free spans before a span in use, and those behind it. -/
theorem exists_split (h : Arena lo hi free used) (hb : b ∈ used) :
    ∃ A B, free = A ++ B ∧ (∀ a ∈ A, a.stop ≤ b.start) ∧ ∀ c ∈ B, b.stop ≤ c.start := by
  have hsorted := h.sorted
  have hcross := fun f hf => h.cross f hf b hb
  have hpos := fun f hf => (h.inside f (Or.inl hf)).2.1
  have hbpos := (h.inside b (Or.inr hb)).2.1
  clear h
  induction free with
  | nil => exact ⟨[], [], rfl, fun _ ha => absurd ha List.not_mem_nil,
      fun _ hc => absurd hc List.not_mem_nil⟩
  | cons f free ih =>
    rw [List.pairwise_cons] at hsorted
    rcases hcross f List.mem_cons_self with hf | hf
    · obtain ⟨A, B, rfl, hA, hB⟩ := ih hsorted.2 (fun g hg => hcross g (List.mem_cons_of_mem f hg))
        fun g hg => hpos g (List.mem_cons_of_mem f hg)
      refine ⟨f :: A, B, rfl, fun a ha => ?_, hB⟩
      rcases List.mem_cons.mp ha with rfl | ha
      · exact hf
      · exact hA a ha
    · -- the free spans behind `f` are behind the span too
      refine ⟨[], f :: free, rfl, fun _ ha => absurd ha List.not_mem_nil, fun c hc => ?_⟩
      rcases List.mem_cons.mp hc with rfl | hc
      · exact hf
      · have hfc := hsorted.1 c hc
        unfold Span.stop at *
        omega

/-- **A free span is used.** -/
theorem take (h : Arena lo hi (A ++ f :: B) used) : Arena lo hi (A ++ B) (f :: used) := by
  have hsub : (A ++ B).Sublist (A ++ f :: B) :=
    (List.Sublist.refl A).append (List.sublist_cons_self f B)
  have hf : f ∈ A ++ f :: B := List.mem_append_right A List.mem_cons_self
  obtain ⟨-, hpair, hbefore⟩ := List.pairwise_append.mp h.sorted
  rw [List.pairwise_cons] at hpair
  refine ⟨h.sorted.sublist hsub, List.pairwise_cons.mpr ⟨fun u hu => h.cross f hf u hu, h.disjoint⟩,
    fun g hg u hu => ?_, fun b hb => ?_⟩
  · rcases List.mem_cons.mp hu with rfl | hu
    · rcases List.mem_append.mp hg with hg | hg
      · exact Or.inl (Nat.le_of_lt (hbefore g hg u List.mem_cons_self))
      · exact Or.inr (Nat.le_of_lt (hpair.1 g hg))
    · exact h.cross g (hsub.subset hg) u hu
  · rcases hb with hb | hb
    · exact h.inside b (Or.inl (hsub.subset hb))
    · rcases List.mem_cons.mp hb with rfl | hb
      · exact h.inside b (Or.inl hf)
      · exact h.inside b (Or.inr hb)

/-- A free span is replaced by others, which are part of it. -/
theorem shorten (h : Arena lo hi (A ++ f :: B) used) (hstart : c.start = f.start) (hpos : 0 < c.len)
    (hlen : c.len ≤ f.len) : Arena lo hi (A ++ c :: B) used := by
  have hf : f ∈ A ++ f :: B := List.mem_append_right A List.mem_cons_self
  have hstop : c.stop ≤ f.stop := by
    unfold Span.stop
    omega
  obtain ⟨hA, hpair, hbefore⟩ := List.pairwise_append.mp h.sorted
  rw [List.pairwise_cons] at hpair
  have hother : ∀ g, g ∈ A ++ c :: B → g = c ∨ g ∈ A ++ f :: B := by
    intro g hg
    rcases List.mem_append.mp hg with hg | hg
    · exact Or.inr (List.mem_append_left _ hg)
    · rcases List.mem_cons.mp hg with rfl | hg
      · exact Or.inl rfl
      · exact Or.inr (List.mem_append_right _ (List.mem_cons_of_mem _ hg))
  refine ⟨?_, h.disjoint, fun g hg u hu => ?_, fun b hb => ?_⟩
  · refine List.pairwise_append.mpr ⟨hA, List.pairwise_cons.mpr ⟨fun b hb => ?_, hpair.2⟩,
      fun a ha b hb => ?_⟩
    · exact Nat.lt_of_le_of_lt hstop (hpair.1 b hb)
    · rcases List.mem_cons.mp hb with rfl | hb
      · rw [hstart]
        exact hbefore a ha f List.mem_cons_self
      · exact hbefore a ha b (List.mem_cons_of_mem _ hb)
  · rcases hother g hg with rfl | hg
    · refine (h.cross f hf u hu).imp (fun hle => hstop.trans hle) fun hle => ?_
      rw [hstart]
      exact hle
    · exact h.cross g hg u hu
  · rcases hb with hb | hb
    · rcases hother b hb with rfl | hb
      · obtain ⟨hlo, -, hhi⟩ := h.inside f (Or.inl hf)
        exact ⟨by rw [hstart]; exact hlo, hpos, hstop.trans hhi⟩
      · exact h.inside b (Or.inl hb)
    · exact h.inside b (Or.inr hb)

/-- **The end of a free span is used.** -/
theorem split {k : Nat} (h : Arena lo hi (A ++ f :: B) used) (hk : 0 < k) (hlt : k < f.len) :
    Arena lo hi (A ++ ⟨f.start, f.len - k⟩ :: B) (⟨f.start + (f.len - k), k⟩ :: used) := by
  have hshort := h.shorten (c := ⟨f.start, f.len - k⟩) rfl (Nat.sub_pos_of_lt hlt) (Nat.sub_le _ _)
  have htaken := h.take
  have hmem : (⟨f.start, f.len - k⟩ : Span) ∈ A ++ ⟨f.start, f.len - k⟩ :: B :=
    List.mem_append_right A List.mem_cons_self
  refine ⟨hshort.sorted, List.pairwise_cons.mpr ⟨fun u hu => ?_, h.disjoint⟩, fun g hg u hu => ?_,
    fun b hb => ?_⟩
  · have hd := (List.pairwise_cons.mp htaken.disjoint).1 u hu
    unfold Span.Disjoint Span.stop at *
    dsimp only
    omega
  · rcases List.mem_cons.mp hu with rfl | hu
    · rcases List.mem_append.mp hg with hg' | hg'
      · have hd := htaken.cross g (List.mem_append_left _ hg') f List.mem_cons_self
        unfold Span.Disjoint Span.stop at *
        dsimp only
        omega
      · rcases List.mem_cons.mp hg' with rfl | hg'
        · exact Or.inl (Nat.le_refl _)
        · have hd := htaken.cross g (List.mem_append_right _ hg') f List.mem_cons_self
          unfold Span.Disjoint Span.stop at *
          dsimp only
          omega
    · exact hshort.cross g hg u hu
  · rcases hb with hb | hb
    · exact hshort.inside b (Or.inl hb)
    · rcases List.mem_cons.mp hb with rfl | hb
      · have hin := h.inside f (Or.inl (List.mem_append_right A List.mem_cons_self))
        unfold Span.stop at *
        dsimp only
        omega
      · exact hshort.inside b (Or.inr hb)

/-- **A span is given back**: it is joined with the free spans `M` that it touches. -/
theorem release (h : Arena lo hi (A ++ (M ++ B)) (u₁ ++ b :: u₂))
    (hbefore : ∀ a ∈ A, a.stop < c.start)
    (hbehind : ∀ a ∈ B, c.stop < a.start) (hlo : lo ≤ c.start) (hhi : c.stop ≤ hi)
    (hpos : 0 < c.len)
    (hcover : ∀ u : Span, 0 < u.len → b.Disjoint u → (∀ m ∈ M, m.Disjoint u) → c.Disjoint u) :
    Arena lo hi (A ++ c :: B) (u₁ ++ u₂) := by
  obtain ⟨hA, hMB, hAB⟩ := List.pairwise_append.mp h.sorted
  obtain ⟨-, hB, -⟩ := List.pairwise_append.mp hMB
  have hmiddle : Arena lo hi (A ++ (M ++ B)) (b :: (u₁ ++ u₂)) := h.perm List.perm_middle
  have hused := List.pairwise_cons.mp hmiddle.disjoint
  have hother : ∀ g, g ∈ A ++ c :: B → g = c ∨ g ∈ A ++ (M ++ B) := by
    intro g hg
    rcases List.mem_append.mp hg with hg | hg
    · exact Or.inr (List.mem_append_left _ hg)
    · rcases List.mem_cons.mp hg with rfl | hg
      · exact Or.inl rfl
      · exact Or.inr (List.mem_append_right _ (List.mem_append_right _ hg))
  refine ⟨?_, hused.2, fun g hg u hu => ?_, fun g hg => ?_⟩
  · refine List.pairwise_append.mpr ⟨hA, List.pairwise_cons.mpr ⟨hbehind, hB⟩, fun a ha d hd => ?_⟩
    rcases List.mem_cons.mp hd with rfl | hd
    · exact hbefore a ha
    · exact hAB a ha d (List.mem_append_right _ hd)
  · have hu' := List.mem_cons_of_mem b hu
    rcases hother g hg with rfl | hg
    · refine hcover u (hmiddle.inside u (Or.inr hu')).2.1 (hused.1 u hu) fun m hm => ?_
      exact hmiddle.cross m (List.mem_append_right _ (List.mem_append_left _ hm)) u hu'
    · exact hmiddle.cross g hg u hu'
  · rcases hg with hg | hg
    · rcases hother g hg with rfl | hg
      · exact ⟨hlo, hpos, hhi⟩
      · exact h.inside g (Or.inl hg)
    · exact hmiddle.inside g (Or.inr (List.mem_cons_of_mem b hg))

/-- There are no more free spans than there is memory. -/
theorem length_le (h : Arena lo hi free used) : free.length ≤ hi := by
  have hsorted := h.sorted
  have hin := fun f hf => h.inside f (Or.inl hf)
  clear h
  induction free using List.reverseRecOn generalizing hi with
  | nil => exact Nat.zero_le _
  | append_singleton free f ih =>
    obtain ⟨hpair, -, hlast⟩ := List.pairwise_append.mp hsorted
    have hf := hin f (List.mem_append_right _ (List.mem_singleton_self f))
    have hlen : free.length ≤ f.start := ih hpair fun g hg => by
      have hg' := hin g (List.mem_append_left _ hg)
      exact ⟨hg'.1, hg'.2.1, Nat.le_of_lt (hlast g hg f (List.mem_singleton_self f))⟩
    rw [List.length_append, List.length_singleton]
    unfold Span.stop at hf
    omega

end Arena

/-! ## Linked lists -/

section Linked

variable {α : Type} {next next' : α → α} {l l₁ l₂ : List α} {x y : α}

/-- **Each node of the list points to the one behind it.** -/
def Linked (next : α → α) (l : List α) : Prop := l.IsChain fun x y => next x = y

theorem linked_append_cons : Linked next (l₁ ++ x :: l₂) ↔ Linked next (l₁ ++ [x]) ∧
    Linked next (x :: l₂) :=
  List.isChain_split

theorem linked_cons_cons : Linked next (x :: y :: l) ↔ next x = y ∧ Linked next (y :: l) :=
  List.isChain_cons_cons

theorem linked_singleton (next : α → α) (x : α) : Linked next [x] := List.isChain_singleton x

/-- A list depends on the pointers of its nodes but the last. -/
theorem Linked.congr (h : Linked next l) (heq : ∀ x ∈ l.dropLast, next' x = next x) :
    Linked next' l := by
  rw [Linked, List.isChain_iff_forall_rel_of_append_cons_cons] at h ⊢
  intro a c l₁ l₂ hl
  rw [← h hl]
  apply heq
  rw [hl, List.dropLast_append_of_ne_nil (List.cons_ne_nil _ _), List.dropLast_cons_of_ne_nil
    (List.cons_ne_nil _ _)]
  exact List.mem_append_right _ List.mem_cons_self

/-- The node behind a node of a list. -/
theorem Linked.next_eq (h : Linked next (l₁ ++ x :: l)) (hne : l ≠ []) : next x = l.head hne := by
  rw [linked_append_cons] at h
  cases l with
  | nil => exact absurd rfl hne
  | cons z l => exact (linked_cons_cons.mp h.2).1

/-- The end of a list. -/
theorem Linked.right (h : Linked next (l₁ ++ l₂)) : Linked next l₂ :=
  List.IsChain.right_of_append h

/-- A node that points to the first one of a list. -/
theorem Linked.cons (h : Linked next l) (hne : l ≠ []) (hx : next x = l.head hne) :
    Linked next (x :: l) := by
  cases l with
  | nil => exact absurd rfl hne
  | cons y l => exact linked_cons_cons.mpr ⟨hx, h⟩

/-- **Another end of a list**, from one of its nodes on: the pointers of the nodes
before that one stay. -/
theorem Linked.splice (h : Linked next (l₁ ++ x :: l₂)) (heq : ∀ y ∈ l₁, next' y = next y)
    (hend : Linked next' (x :: l)) : Linked next' (l₁ ++ x :: l) := by
  rw [linked_append_cons] at h ⊢
  refine ⟨h.1.congr fun y hy => heq y ?_, hend⟩
  rwa [List.dropLast_concat] at hy

/-- A circular list can be entered at each of its nodes. -/
theorem Linked.rotate (h : Linked next (y :: (l ++ [y]))) (hx : x ∈ y :: l) :
    ∃ l', (∀ z, z ∈ y :: l ↔ z = x ∨ z ∈ l') ∧ l'.length = l.length ∧ ((y :: l).Nodup → x ∉ l') ∧
      Linked next (x :: (l' ++ [x])) := by
  rcases List.mem_cons.mp hx with rfl | hx
  · exact ⟨l, fun z => List.mem_cons, rfl, fun hnodup => (List.nodup_cons.mp hnodup).1, h⟩
  · obtain ⟨l₁, l₂, rfl⟩ := List.append_of_mem hx
    have hcut : y :: (l₁ ++ x :: l₂ ++ [y]) = y :: l₁ ++ x :: (l₂ ++ [y]) := by simp
    rw [hcut, linked_append_cons] at h
    refine ⟨l₂ ++ y :: l₁, fun z => ?_, ?_, fun hnodup => ?_, ?_⟩
    · simp only [List.mem_cons, List.mem_append]
      grind
    · simp only [List.length_append, List.length_cons]
      omega
    · have hperm : (y :: (l₁ ++ x :: l₂)).Perm (x :: (l₂ ++ y :: l₁)) := by
        rw [← List.cons_append]
        exact List.perm_append_comm
      exact (List.nodup_cons.mp (hperm.nodup_iff.mp hnodup)).1
    · have hglue : x :: (l₂ ++ y :: l₁ ++ [x]) = x :: l₂ ++ y :: (l₁ ++ [x]) := by simp
      rw [hglue, linked_append_cons]
      exact ⟨h.2, h.1⟩

end Linked
