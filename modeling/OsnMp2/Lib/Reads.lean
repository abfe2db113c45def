import Mathlib.Data.List.Range
import Mathlib.Logic.Basic

/-!
# Programs that read a memory

A program that reads one cell after the other, where what it reads next may depend on what it has
read before. Beside its result there is the list of the cells that it has read; the result and that
list depend on these cells only.

## Main definitions

* `Reads K V α`: programs that read cells `K` with values `V`
* `Reads.value`, `Reads.trace`: the result, and the cells read
* `Reads.load`, `Reads.loads`, `Reads.each`: one cell, neighbouring cells, a program
  for each entry of a list
* `Reads.Within`: only cells below a bound are read
* `Holds`: a list is in the memory at a place

## Main results

* `Reads.agree`: two memories that agree on what is read give the same run
* `Reads.within_bind`, `Reads.within_each`: bounds, from those of the parts
* `holds_append`, `Holds.cells`: reading back what is there
-/

/-- A program that reads cells. -/
inductive Reads (K V α : Type)
  | done (a : α)
  | read (k : K) (next : V → Reads K V α)

namespace Reads

variable {K V α β : Type} {m m' : K → V}

protected def bind : Reads K V α → (α → Reads K V β) → Reads K V β
  | done a, f => f a
  | read k next, f => read k fun v => (next v).bind f

instance : Monad (Reads K V) where
  pure := done
  bind := Reads.bind

/-- The result. -/
def value : Reads K V α → (K → V) → α
  | done a, _ => a
  | read k next, m => (next (m k)).value m

/-- The cells read, in the order in which they are. -/
def trace : Reads K V α → (K → V) → List K
  | done _, _ => []
  | read k next, m => k :: (next (m k)).trace m

/-- Read a cell. -/
def load (k : K) : Reads K V V := read k done

/-- Run a program for each entry, and collect the results. -/
def each (f : β → Reads K V α) : List β → Reads K V (List α)
  | [] => pure []
  | b :: bs => do
    let a ← f b
    let rest ← each f bs
    return a :: rest

@[simp] theorem value_pure (a : α) : (pure a : Reads K V α).value m = a := rfl

@[simp] theorem value_load (k : K) : (load k : Reads K V V).value m = m k := rfl

@[simp] theorem value_bind (x : Reads K V α) (f : α → Reads K V β) :
    (x >>= f).value m = (f (x.value m)).value m := by
  show (x.bind f).value m = _
  induction x with
  | done a => rfl
  | read k next ih => exact ih (m k)

theorem trace_bind (x : Reads K V α) (f : α → Reads K V β) :
    (x >>= f).trace m = x.trace m ++ (f (x.value m)).trace m := by
  show (x.bind f).trace m = _
  induction x with
  | done a => rfl
  | read k next ih => exact congrArg (List.cons k) (ih (m k))

@[simp] theorem value_each (f : β → Reads K V α) (bs : List β) :
    (each f bs).value m = bs.map fun b => (f b).value m := by
  induction bs with
  | nil => rfl
  | cons b bs ih => rw [each, value_bind, value_bind, ih, value_pure, List.map_cons]

theorem value_ite (c : Prop) [Decidable c] (x y : Reads K V α) :
    (if c then x else y).value m = if c then x.value m else y.value m := apply_ite (value · m) c x y

/-- **Only what is read counts**: on a memory that agrees on the cells read, the run is the same. -/
theorem agree (x : Reads K V α) (h : ∀ k ∈ x.trace m, m k = m' k) :
    x.value m' = x.value m ∧ x.trace m' = x.trace m := by
  induction x with
  | done a => exact ⟨rfl, rfl⟩
  | read k next ih =>
    have hk : m k = m' k := h k List.mem_cons_self
    have hrest := ih (m k) fun k' hk' => h k' (List.mem_cons_of_mem k hk')
    simp only [value, trace, ← hk]
    exact ⟨hrest.1, congrArg (List.cons k) hrest.2⟩

end Reads

namespace Reads

variable {V α β : Type} {m m' : Nat → V} {n : Nat}

/-- Read `n` neighbouring cells. -/
def loads (p n : Nat) : Reads Nat V (List V) := each (fun i => load (p + i)) (List.range n)

/-- The cells from `p` on. -/
def cells (m : Nat → V) (p n : Nat) : List V := (List.range n).map fun i => m (p + i)

@[simp] theorem value_loads (p n : Nat) : (loads p n).value m = cells m p n := value_each _ _

@[simp] theorem length_cells (p n : Nat) : (cells m p n).length = n := by simp [cells]

theorem getElem?_cells {p i : Nat} (hi : i < n) : (cells m p n)[i]? = some (m (p + i)) := by
  rw [cells, List.getElem?_map, List.getElem?_range hi]
  rfl

/-- A part of neighbouring cells. -/
theorem take_drop_cells (p i k : Nat) :
    ((cells m p n).drop i).take k = cells m (p + i) (min k (n - i)) := by
  apply List.ext_getElem?
  intro j
  by_cases hj : j < min k (n - i)
  · rw [getElem?_cells hj, List.getElem?_take_of_lt (by omega), List.getElem?_drop,
      getElem?_cells (by omega), Nat.add_assoc]
  · rw [List.getElem?_eq_none (by simp; omega), List.getElem?_eq_none (by simp; omega)]

theorem take_cells (p k : Nat) : (cells m p n).take k = cells m p (min k n) := by
  have := take_drop_cells (m := m) (n := n) p 0 k
  rwa [List.drop_zero, Nat.add_zero, Nat.sub_zero] at this

/-- **Only cells below `n`** are read. -/
def Within (n : Nat) (x : Reads Nat V α) (m : Nat → V) : Prop := ∀ k ∈ x.trace m, k < n

theorem within_pure (a : α) : Within n (pure a : Reads Nat V α) m ↔ True :=
  iff_true_intro fun _ hk => absurd hk List.not_mem_nil

theorem within_load (p : Nat) : Within n (load p : Reads Nat V V) m ↔ p < n :=
  ⟨fun h => h p List.mem_cons_self, fun h k hk => by rw [List.mem_singleton.mp hk]; exact h⟩

theorem within_bind (x : Reads Nat V α) (f : α → Reads Nat V β) :
    Within n (x >>= f) m ↔ Within n x m ∧ Within n (f (x.value m)) m := by
  unfold Within
  rw [trace_bind]
  exact List.forall_mem_append

theorem within_each (f : β → Reads Nat V α) (bs : List β) :
    Within n (each f bs) m ↔ ∀ b ∈ bs, Within n (f b) m := by
  induction bs with
  | nil => exact iff_of_true ((within_pure []).mpr trivial) fun _ hb => absurd hb List.not_mem_nil
  | cons b bs ih =>
    rw [each, within_bind, within_bind, ih, within_pure, and_true, List.forall_mem_cons]

theorem within_loads (p k : Nat) : Within n (loads p k : Reads Nat V (List V)) m ↔ k = 0 ∨
    p + k ≤ n := by
  rw [loads, within_each]
  simp only [List.mem_range, within_load]
  constructor
  · intro h
    rcases k with _ | k
    · exact Or.inl rfl
    · have := h k (Nat.lt_succ_self k)
      exact Or.inr (by omega)
  · rintro (rfl | h) i hi
    · exact absurd hi (Nat.not_lt_zero i)
    · omega

/-- A run that stays below `n` is the same on a memory that agrees below `n`. -/
theorem Within.agree {x : Reads Nat V α} (h : Within n x m) (hm : ∀ i, i < n → m i = m' i) :
    x.value m' = x.value m ∧ x.trace m' = x.trace m := x.agree fun k hk => hm k (h k hk)

end Reads

/-- The list is in the memory, from `p` on. -/
def Holds {V : Type} (m : Nat → V) (p : Nat) (l : List V) : Prop := ∀ i v, l[i]? = some v →
    m (p + i) = v

section Holds

variable {V : Type} {m : Nat → V} {p : Nat} {l l' : List V}

theorem holds_cons {v : V} : Holds m p (v :: l) ↔ m p = v ∧ Holds m (p + 1) l := by
  constructor
  · refine fun h => ⟨h 0 v rfl, fun i w hi => ?_⟩
    have := h (i + 1) w hi
    rwa [show p + (i + 1) = p + 1 + i by omega] at this
  · rintro ⟨rfl, h⟩ i w hi
    rcases i with _ | i
    · exact Option.some.inj hi
    · have := h i w hi
      rwa [show p + 1 + i = p + (i + 1) by omega] at this

theorem holds_append : Holds m p (l ++ l') ↔ Holds m p l ∧ Holds m (p + l.length) l' := by
  constructor
  · refine fun h => ⟨fun i v hi => ?_, fun i v hi => ?_⟩
    · exact h i v (List.getElem?_append_left (List.getElem?_eq_some_iff.mp hi).1 ▸ hi)
    · have := h (l.length + i) v
        (by rw [List.getElem?_append_right (by omega), Nat.add_sub_cancel_left]; exact hi)
      rwa [← Nat.add_assoc] at this
  · rintro ⟨h, h'⟩ i v hi
    by_cases hlt : i < l.length
    · exact h i v (List.getElem?_append_left hlt ▸ hi)
    · rw [List.getElem?_append_right (by omega)] at hi
      have := h' (i - l.length) v hi
      rwa [show p + l.length + (i - l.length) = p + i by omega] at this

theorem holds_cells {n : Nat} : Holds m p (Reads.cells m p n) := by
  intro i v hi
  have hlt := (List.getElem?_eq_some_iff.mp hi).1
  rw [Reads.length_cells] at hlt
  rw [Reads.getElem?_cells hlt] at hi
  exact Option.some.inj hi

/-- **What is there is read back**. -/
theorem Holds.cells (h : Holds m p l) {n : Nat} (hn : n = l.length) : Reads.cells m p n = l := by
  apply List.ext_getElem?
  intro i
  by_cases hi : i < n
  · rw [Reads.getElem?_cells hi]
    have hget : l[i]? = some l[i] := List.getElem?_eq_getElem (by omega)
    rw [hget, h i _ hget]
  · rw [List.getElem?_eq_none (by simpa using hi), List.getElem?_eq_none (by omega)]

end Holds
