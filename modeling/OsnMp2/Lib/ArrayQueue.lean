import Mathlib.Data.List.Basic
import Mathlib.Data.List.Range
import Mathlib.Logic.Function.Basic

/-!
# Queues in an array

A queue kept in an array with a head and a tail index, as C programs write it: `push` stores at the
tail, `pop` moves the head, and an entry is taken out of the middle by moving the ones behind it
down one by one. The entries in use, from the head to the tail, are the contents of the queue; each
operation is described by what it does to them.

## Main definitions

* `ArrayQueue`: the array with its two indices
* `ArrayQueue.contents`: the entries in use
* `ArrayQueue.pushed`: the entries from the start of the array on
* `push`, `pop`, `removeAt`, `findIdx`: the operations

## Main results

* `contents_push`, `contents_pop`, `contents_removeAt`: the operations on the contents
* `findIdx_eq_some`: the position found is that of an entry in use
-/

variable {α : Type}

/-- An array used as a queue: the entries `head`, …, `tail - 1` are in use. -/
structure ArrayQueue (α : Type) where
  data : Nat → α
  head : Nat := 0
  tail : Nat := 0

namespace ArrayQueue

/-- The entries in use, in order. -/
def contents (q : ArrayQueue α) : List α := (List.range' q.head (q.tail - q.head)).map q.data

/-- The entries stored so far, when none was taken out of the middle. -/
def pushed (q : ArrayQueue α) : List α := (List.range q.tail).map q.data

/-- Store an entry at the tail. -/
def push (q : ArrayQueue α) (x : α) : ArrayQueue α :=
  { q with data := Function.update q.data q.tail x, tail := q.tail + 1 }

/-- The entry at the head. -/
def front (q : ArrayQueue α) : α := q.data q.head

/-- Drop the entry at the head. -/
def pop (q : ArrayQueue α) : ArrayQueue α := { q with head := q.head + 1 }

/-- Move `n` entries down by one place, from the place `i` on. -/
def shift (data : Nat → α) : Nat → Nat → Nat → α
  | _, 0 => data
  | i, n + 1 => shift (Function.update data i (data (i + 1))) (i + 1) n

/-- Take the entry at the place `i` out. -/
def removeAt (q : ArrayQueue α) (i : Nat) : ArrayQueue α :=
  { q with data := shift q.data i (q.tail - 1 - i), tail := q.tail - 1 }

/-- The place of the first entry in use that passes the test. -/
def findIdx (q : ArrayQueue α) (p : α → Bool) : Option Nat :=
  (List.range' q.head (q.tail - q.head)).find? fun i => p (q.data i)

variable {q : ArrayQueue α}

/-! ## Pushing and popping -/

theorem contents_push (h : q.head ≤ q.tail) (x : α) :
    (q.push x).contents = q.contents ++ [x] := by
  have hn : q.tail + 1 - q.head = q.tail - q.head + 1 := by omega
  have hold : (List.range' q.head (q.tail - q.head)).map (Function.update q.data q.tail x) =
      (List.range' q.head (q.tail - q.head)).map q.data := by
    apply List.map_congr_left
    intro i hi
    have := (List.mem_range'_1.mp hi).2
    exact Function.update_of_ne (by omega) ..
  rw [contents, push, hn, List.range'_concat, List.map_append, hold, contents]
  simp only [List.map_cons, List.map_nil]
  rw [show q.head + 1 * (q.tail - q.head) = q.tail by omega, Function.update_self]

theorem contents_pop (h : q.head < q.tail) : q.contents = q.front :: q.pop.contents := by
  have hn : q.tail - q.head = q.tail - (q.head + 1) + 1 := by omega
  rw [contents, hn, List.range'_succ, List.map_cons]
  rfl

theorem contents_eq_nil (h : q.tail ≤ q.head) : q.contents = [] := by
  rw [contents, Nat.sub_eq_zero_of_le h]
  rfl

theorem front_mem (h : q.head < q.tail) : q.front ∈ q.contents := by
  rw [contents_pop h]
  exact List.mem_cons_self

theorem pushed_push (q : ArrayQueue α) (x : α) : (q.push x).pushed = q.pushed ++ [x] := by
  have hold : (List.range q.tail).map (Function.update q.data q.tail x) =
    (List.range q.tail).map q.data := by
    apply List.map_congr_left
    intro i hi
    exact Function.update_of_ne (Nat.ne_of_lt (List.mem_range.mp hi)) ..
  rw [pushed, push, List.range_succ, List.map_append, hold, List.map_singleton]
  dsimp only
  rw [Function.update_self, pushed]

@[simp] theorem pushed_pop (q : ArrayQueue α) : q.pop.pushed = q.pushed := rfl

@[simp] theorem length_pushed (q : ArrayQueue α) : q.pushed.length = q.tail := by
  rw [pushed, List.length_map, List.length_range]

theorem length_contents (q : ArrayQueue α) : q.contents.length = q.tail - q.head := by
  rw [contents, List.length_map, List.length_range']

/-! ## Taking an entry out of the middle -/

/-- What the loop leaves at each place. -/
theorem shift_apply (n : Nat) : ∀ (data : Nat → α) (i k : Nat),
    shift data i n k = if i ≤ k ∧ k < i + n then data (k + 1) else data k := by
  -- by induction on the number of entries left to move: the place `i` gets the next entry first
  induction n with
  | zero =>
    intro data i k
    rw [shift, if_neg (by omega)]
  | succ n ih =>
    intro data i k
    rw [shift, ih]
    rcases lt_trichotomy k i with hk | rfl | hk
    · rw [if_neg (by omega), if_neg (by omega), Function.update_of_ne (by omega)]
    · rw [if_neg (by omega), if_pos (by omega), Function.update_self]
    · rw [Function.update_of_ne (show k + 1 ≠ i by omega),
        Function.update_of_ne (show k ≠ i by omega)]
      split <;> split <;> first | rfl | omega

/-- The entries before the place `i` and those after it. -/
theorem contents_split {i : Nat} (h : q.head ≤ i) (h' : i < q.tail) :
    q.contents = (List.range' q.head (i - q.head)).map q.data ++
      q.data i :: (List.range' (i + 1) (q.tail - (i + 1))).map q.data := by
  have hn : q.tail - q.head = (i - q.head) + (q.tail - (i + 1) + 1) := by omega
  rw [contents, hn, ← List.range'_append_1, List.map_append, List.range'_succ, List.map_cons,
    show q.head + (i - q.head) = i by omega]

/-- **Taking out** the entry at a place in use leaves the others in order. -/
theorem contents_removeAt {i : Nat} (h : q.head ≤ i) (h' : i < q.tail) :
    (q.removeAt i).contents = (List.range' q.head (i - q.head)).map q.data ++
      (List.range' (i + 1) (q.tail - (i + 1))).map q.data := by
  have hn : q.tail - 1 - q.head = (i - q.head) + (q.tail - (i + 1)) := by omega
  rw [contents, removeAt]
  dsimp only
  rw [hn, ← List.range'_append_1, List.map_append, show q.head + (i - q.head) = i by omega]
  congr 1
  · apply List.map_congr_left
    intro k hk
    have := (List.mem_range'_1.mp hk).2
    rw [shift_apply, if_neg (by omega)]
  · rw [show i + 1 = 1 + i from Nat.add_comm i 1, ← List.map_add_range', List.map_map]
    apply List.map_congr_left
    intro k hk
    have := List.mem_range'_1.mp hk
    rw [shift_apply, if_pos (by omega), Function.comp_apply, Nat.add_comm]

theorem mem_contents_of_place {i : Nat} (h : q.head ≤ i) (h' : i < q.tail) :
    q.data i ∈ q.contents := by
  rw [contents_split h h']
  simp

/-- Without repetitions, the entry taken out is gone and the other ones are as they were. -/
theorem mem_removeAt {i : Nat} (h : q.head ≤ i) (h' : i < q.tail) (hnd : q.contents.Nodup) (x : α) :
    x ∈ (q.removeAt i).contents ↔ x ∈ q.contents ∧ x ≠ q.data i := by
  rw [contents_split h h'] at hnd ⊢
  rw [contents_removeAt h h']
  obtain ⟨-, hright, hdisj⟩ := List.nodup_append.mp hnd
  have hnotin := (List.nodup_cons.mp hright).1
  constructor
  · intro hx
    rcases List.mem_append.mp hx with hx | hx
    · exact ⟨List.mem_append_left _ hx, hdisj x hx _ List.mem_cons_self⟩
    · refine ⟨List.mem_append_right _ (List.mem_cons_of_mem _ hx), ?_⟩
      rintro rfl
      exact hnotin hx
  · rintro ⟨hx, hne⟩
    rcases List.mem_append.mp hx with hx | hx
    · exact List.mem_append_left _ hx
    · exact List.mem_append_right _ ((List.mem_cons.mp hx).resolve_left hne)

theorem nodup_removeAt {i : Nat} (h : q.head ≤ i) (h' : i < q.tail) (hnd : q.contents.Nodup) :
    (q.removeAt i).contents.Nodup := by
  rw [contents_split h h'] at hnd
  rw [contents_removeAt h h']
  apply List.Nodup.sublist _ hnd
  exact (List.Sublist.refl _).append (List.sublist_cons_self _ _)

/-! ## Searching -/

theorem findIdx_eq_some {p : α → Bool} {i : Nat} (h : q.findIdx p = some i) :
    q.head ≤ i ∧ i < q.tail ∧ p (q.data i) = true := by
  unfold findIdx at h
  have hi := List.mem_range'_1.mp (List.mem_of_find?_eq_some h)
  have hp : p (q.data i) = true := by simpa using List.find?_some h
  exact ⟨hi.1, by omega, hp⟩

end ArrayQueue
