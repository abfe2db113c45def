import Mathlib.Data.List.Chain
import Mathlib.Data.List.Nodup
import Mathlib.Logic.Function.Basic

/-!
# Doubly linked rings

A ring of nodes that point to the next and to the previous one, with a node at which it is entered.
What the pointers of the nodes say is a list: the nodes behind the entry, in order. Nodes are taken
out and put in with two and with four assignments, one after the other; these lemmas say which list
the ring is afterwards, whatever the pointers of the nodes outside of it are.

## Main definitions

* `Links`: the pointers
* `Links.Ring r h l`: the ring through `h` goes through the nodes `l`
* `Links.unlink`, `Links.insertAfter`: the operations
* `Links.findNext`: a walk through the ring up to a node that passes a test

## Main results

* `Ring.unlink`, `Ring.insertAfter`: the operations on the list
* `Ring.findNext`: the walk finds the first node of the list that passes the test
* `Ring.flip`: the ring the other way round
-/

/-- The pointers of the nodes. -/
structure Links (α : Type) where
  next : α → α
  prev : α → α

namespace Links

variable {α : Type}

/-- The ring the other way round. -/
def flip (r : Links α) : Links α := ⟨r.prev, r.next⟩

/-- The nodes of a list are linked, each with the one behind it. -/
def Chained (r : Links α) (l : List α) : Prop := l.IsChain fun x y => r.next x = y ∧ r.prev y = x

/-- **The ring through `h` goes through the nodes `l`**, and through none of them twice. -/
structure Ring (r : Links α) (h : α) (l : List α) : Prop where
  chained : r.Chained (h :: (l ++ [h]))
  nodup : (h :: l).Nodup

/-- Walk from the node `x` on, up to a node that passes the test or to the entry. -/
def findNext [DecidableEq α] (r : Links α) (h : α) (p : α → Bool) : Nat → α → Option α
  | 0, _ => none
  | n + 1, x => if x = h then none else if p x then some x else findNext r h p n (r.next x)

section Operations

variable [DecidableEq α]

def setNext (r : Links α) (x y : α) : Links α := { r with next := Function.update r.next x y }

def setPrev (r : Links α) (x y : α) : Links α := { r with prev := Function.update r.prev x y }

/-- Take the node `b` out: `b->next->prev = b->prev; b->prev->next = b->next`. -/
def unlink (r : Links α) (b : α) : Links α :=
  let r := r.setPrev (r.next b) (r.prev b)
  r.setNext (r.prev b) (r.next b)

/-- Put the node `b` in behind `h`: `b->next = h->next; b->prev = h; h->next->prev = b; h->next =
b`. -/
def insertAfter (r : Links α) (h b : α) : Links α :=
  let r := r.setNext b (r.next h)
  let r := r.setPrev b h
  let r := r.setPrev (r.next h) b
  r.setNext h b

/-- The ring of the entry alone: `h->prev = h; h->next = h`. -/
def close (r : Links α) (h : α) : Links α := (r.setPrev h h).setNext h h

end Operations

variable {r r' : Links α} {h b x : α} {l l₁ l₂ : List α}

/-! ## Chains -/

/-- A chain depends on the pointers inside of it. -/
theorem Chained.congr (hc : r.Chained l) (hnext : ∀ a ∈ l.dropLast, r'.next a = r.next a)
    (hprev : ∀ a ∈ l.tail, r'.prev a = r.prev a) : r'.Chained l := by
  rw [Chained, List.isChain_iff_forall_rel_of_append_cons_cons] at hc ⊢
  intro a c l₁ l₂ heq
  obtain ⟨hn, hp⟩ := hc heq
  have ha : a ∈ l.dropLast := by
    rw [heq, List.dropLast_append_of_ne_nil (List.cons_ne_nil _ _), List.dropLast_cons_of_ne_nil
      (List.cons_ne_nil _ _)]
    exact List.mem_append_right _ List.mem_cons_self
  have hct : c ∈ l.tail := by
    rw [heq]
    cases l₁ with
    | nil => exact List.mem_cons_self
    | cons y l₁ => exact List.mem_append_right _ (List.mem_cons_of_mem _ List.mem_cons_self)
  exact ⟨(hnext a ha).trans hn, (hprev c hct).trans hp⟩

theorem chained_append_cons : r.Chained (l₁ ++ b :: l₂) ↔ r.Chained (l₁ ++ [b]) ∧
    r.Chained (b :: l₂) :=
  List.isChain_split

theorem chained_cons_cons : r.Chained (x :: b :: l) ↔ (r.next x = b ∧ r.prev b = x) ∧
    r.Chained (b :: l) :=
  List.isChain_cons_cons

/-- The ring the other way round. -/
theorem Ring.flip (hr : r.Ring h l) : r.flip.Ring h l.reverse where
  chained := by
    have hlist : h :: (l.reverse ++ [h]) = (h :: (l ++ [h])).reverse := by simp
    rw [hlist, Chained, List.isChain_reverse]
    exact hr.chained.imp fun _ _ hxy => ⟨hxy.2, hxy.1⟩
  nodup := by
    have hnd := List.nodup_cons.mp hr.nodup
    exact List.nodup_cons.mpr ⟨fun hmem => hnd.1 (List.mem_reverse.mp hmem),
      List.nodup_reverse.mpr hnd.2⟩

/-- The first node behind the entry does not come again before it is back at the entry. -/
theorem not_mem_rest {z : α} {q : List α} (hnd : (h :: l).Nodup) (hz : l ++ [h] = z :: q) :
    z ∉ q := by
  have hnd' : (l ++ [h]).Nodup := (List.perm_append_singleton h l).nodup_iff.mpr hnd
  rw [hz] at hnd'
  exact (List.nodup_cons.mp hnd').1

/-- The node behind the entry. -/
theorem exists_first (h : α) (l : List α) : ∃ z q, l ++ [h] = z :: q := by
  cases l with
  | nil => exact ⟨h, [], rfl⟩
  | cons z l => exact ⟨z, l ++ [h], rfl⟩

/-! ## Walking -/

section Walk

variable [DecidableEq α]

/-- The walk over what is left of the ring. -/
theorem findNext_chained {p : α → Bool} (l : List α) :
    ∀ {n : Nat} {x : α}, r.Chained (x :: (l ++ [h])) →
    h ∉ l → l.length < n → r.findNext h p n (r.next x) = l.find? p := by
  induction l with
  | nil =>
    intro n x hc _ hn
    obtain ⟨m, rfl⟩ : ∃ m, n = m + 1 := ⟨n - 1, by simp only [List.length_nil] at hn; omega⟩
    rw [(chained_cons_cons.mp hc).1.1, findNext, if_pos rfl]
    rfl
  | cons y l ih =>
    intro n x hc hh hn
    obtain ⟨m, rfl⟩ : ∃ m, n = m + 1 := ⟨n - 1, by simp only [List.length_cons] at hn; omega⟩
    obtain ⟨⟨hnext, -⟩, hrest⟩ := chained_cons_cons.mp hc
    rw [hnext, findNext, if_neg fun heq => hh (by rw [← heq]; exact List.mem_cons_self),
      List.find?_cons]
    cases hy : p y with
    | true => rfl
    | false =>
      exact ih hrest (fun hmem => hh (List.mem_cons_of_mem _ hmem))
        (by simp only [List.length_cons] at hn; omega)

/-- **The walk finds** the first node that passes the test. -/
theorem Ring.findNext {p : α → Bool} {n : Nat} (hr : r.Ring h l) (hn : l.length < n) :
    r.findNext h p n (r.next h) = l.find? p :=
  findNext_chained l hr.chained (List.nodup_cons.mp hr.nodup).1 hn

/-! ## Taking a node out, and putting one in -/

/-- **A node is taken out.** -/
theorem Ring.unlink (hr : r.Ring h (l₁ ++ b :: l₂)) : (r.unlink b).Ring h (l₁ ++ l₂) := by
  have hnd := hr.nodup
  -- the nodes before and behind it
  obtain ⟨p, x, hx⟩ : ∃ p x, h :: l₁ = p ++ [x] :=
    ⟨_, _, (List.dropLast_append_getLast (List.cons_ne_nil h l₁)).symm⟩
  obtain ⟨z, q, hz⟩ := exists_first h l₂
  have hall : h :: (l₁ ++ b :: l₂ ++ [h]) = p ++ x :: b :: z :: q := by
    rw [List.append_assoc, List.cons_append, ← List.cons_append, hx, hz, List.append_assoc]
    rfl
  have hc := hr.chained
  rw [hall, chained_append_cons, chained_cons_cons, chained_cons_cons] at hc
  obtain ⟨hpre, ⟨hxn, hbp⟩, ⟨hbn, hzp⟩, hpost⟩ := hc
  have hperm : (h :: (l₁ ++ b :: l₂)).Perm (b :: (h :: l₁ ++ l₂)) :=
    show ((h :: l₁) ++ b :: l₂).Perm _ from List.perm_middle
  have hnd' : (h :: l₁ ++ l₂).Nodup := (List.nodup_cons.mp (hperm.nodup_iff.mp hnd)).2
  have hbnot : b ∉ h :: l₁ ++ l₂ := (List.nodup_cons.mp (hperm.nodup_iff.mp hnd)).1
  have hxmem : x ∈ h :: l₁ := by
    rw [hx]
    exact List.mem_append_right _ (List.mem_singleton_self x)
  have hzmem : z ∈ l₂ ++ [h] := by
    rw [hz]
    exact List.mem_cons_self
  have hzb : z ≠ b := by
    rintro rfl
    rcases List.mem_append.mp hzmem with hmem | hmem
    · exact hbnot (List.mem_append_right _ hmem)
    · exact hbnot (List.mem_append_left _
        (by rw [List.mem_singleton.mp hmem]; exact List.mem_cons_self))
  have hprev : (r.setPrev z x).prev b = x := by
    rw [← hbp]
    exact Function.update_of_ne hzb.symm ..
  have hunlink : r.unlink b = (r.setPrev z x).setNext x z := by
    show ((r.setPrev (r.next b) (r.prev b)).setNext ((r.setPrev (r.next b) (r.prev b)).prev b)
      (r.next b)) = _
    rw [hbn, hbp, hprev]
  have hdisj := (List.nodup_append.mp hnd').2.2
  refine ⟨?_, hnd'⟩
  have hnew : h :: (l₁ ++ l₂ ++ [h]) = p ++ x :: z :: q := by
    rw [List.append_assoc, hz, ← List.cons_append, hx, List.append_assoc]
    rfl
  rw [hnew, hunlink, chained_append_cons, chained_cons_cons]
  refine ⟨?_, ⟨Function.update_self .., Function.update_self ..⟩, ?_⟩
  · -- the nodes up to `x`
    refine hpre.congr (fun a ha => ?_) fun a ha => ?_
    · rw [List.dropLast_concat] at ha
      have hpx := (List.nodup_append.mp hnd').1
      rw [hx] at hpx
      exact Function.update_of_ne ((List.nodup_append.mp hpx).2.2 a ha x
        (List.mem_singleton_self x)) ..
    · rw [← hx, List.tail_cons] at ha
      refine Function.update_of_ne ?_ ..
      rintro rfl
      rcases List.mem_append.mp hzmem with hmem | hmem
      · exact hdisj a (List.mem_cons_of_mem _ ha) a hmem rfl
      · rw [List.mem_singleton.mp hmem] at ha
        exact (List.nodup_cons.mp (List.nodup_append.mp hnd').1).1 ha
  · -- the nodes from `z` on
    refine hpost.congr (fun a ha => ?_) fun a ha => ?_
    · rw [← hz, List.dropLast_concat] at ha
      exact Function.update_of_ne (fun hax => hdisj x hxmem a ha hax.symm) ..
    · refine Function.update_of_ne ?_ ..
      rw [List.tail_cons] at ha
      rintro rfl
      have hsub : (h :: l₂).Sublist (h :: l₁ ++ l₂) := (List.sublist_append_right l₁ l₂).cons_cons h
      exact not_mem_rest (hnd'.sublist hsub) hz ha

/-- **A node is put in**, behind the entry. -/
theorem Ring.insertAfter (hr : r.Ring h l) (hb : b ∉ h :: l) :
    (r.insertAfter h b).Ring h (b :: l) := by
  obtain ⟨z, q, hz⟩ := exists_first h l
  have hc := hr.chained
  rw [hz, chained_cons_cons] at hc
  obtain ⟨⟨hn, hp⟩, hrest⟩ := hc
  have hhb : h ≠ b := by
    rintro rfl
    exact hb List.mem_cons_self
  have hbl : b ∉ z :: q := by
    rw [← hz, (List.perm_append_singleton h l).mem_iff]
    exact hb
  have hzb : z ≠ b := (List.ne_of_not_mem_cons hbl).symm
  have hinsert : r.insertAfter h b = (((r.setNext b z).setPrev b h).setPrev z b).setNext h b := by
    have hnext : (r.setNext b z).next h = z := by
      rw [← hn]
      exact Function.update_of_ne hhb ..
    show ((((r.setNext b (r.next h)).setPrev b h).setPrev ((r.setNext b (r.next h)).next h)
      b).setNext h b) = _
    rw [hn, hnext]
  refine ⟨?_, ?_⟩
  · rw [List.cons_append, hz, hinsert, chained_cons_cons, chained_cons_cons]
    refine ⟨⟨Function.update_self .., ?_⟩, ⟨?_, Function.update_self ..⟩, ?_⟩
    · show Function.update (Function.update r.prev b h) z b b = h
      rw [Function.update_of_ne hzb.symm, Function.update_self]
    · show Function.update (Function.update r.next b z) h b b = z
      rw [Function.update_of_ne hhb.symm, Function.update_self]
    · refine hrest.congr (fun a ha => ?_) fun a ha => ?_
      · rw [← hz, List.dropLast_concat] at ha
        show Function.update (Function.update r.next b z) h b a = r.next a
        rw [Function.update_of_ne, Function.update_of_ne]
        · rintro rfl
          exact hb (List.mem_cons_of_mem _ ha)
        · rintro rfl
          exact (List.nodup_cons.mp hr.nodup).1 ha
      · rw [List.tail_cons] at ha
        show Function.update (Function.update r.prev b h) z b a = r.prev a
        have hne : a ≠ z := by
          rintro rfl
          exact not_mem_rest hr.nodup hz ha
        have hab : a ≠ b := by
          rintro rfl
          exact hbl (List.mem_cons_of_mem _ ha)
        rw [Function.update_of_ne hne, Function.update_of_ne hab]
  · have hnd := List.nodup_cons.mp hr.nodup
    rw [List.nodup_cons, List.nodup_cons]
    rw [List.mem_cons, not_or] at hb
    refine ⟨fun hmem => ?_, hb.2, hnd.2⟩
    rcases List.mem_cons.mp hmem with heq | hmem
    · exact hhb heq
    · exact hnd.1 hmem

/-- The ring of the entry alone. -/
theorem ring_close (r : Links α) (h : α) : (r.close h).Ring h [] where
  chained := chained_cons_cons.mpr ⟨⟨Function.update_self .., Function.update_self ..⟩,
    List.isChain_singleton h⟩
  nodup := List.nodup_singleton h

end Walk

end Links
