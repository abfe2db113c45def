import OsnMp2.Kernel.Sbrk
import OsnMp2.Lib.FreeList

/-!
# The memory allocator of the user library

`malloc` and `free` of `umalloc.c`: a circular list of free blocks in the order of their addresses,
which starts at the static header `base`, and a heap that grows with `sbrk`. A block is a header and
what is behind it, in units of the size of a header. The memory is given by the header at each
address; what a program keeps in its blocks are headers as well, for all that the allocator knows.

The count of units fits a `uint`, and the byte count is computed with 64 bits, but `sbrk` takes an
`int`. For a request of close to 2 GiB or more the count is narrowed to a number that is negative,
zero or small, and `growproc` may accept that: a shrink by more than there is wraps, and leaves
everything as it is. The heap has not grown then, and the header of a block that does not exist is
stored behind the break. The store goes through when its page is mapped, which the page of the break
may be, and kills the process otherwise.

## Main definitions

* `free`, `morecore`, `malloc`: the functions of `umalloc.c`
* `growproc`, `sbrk`: what the kernel does to the size of the process
* `State`, `Step`: the heap with the blocks in use, and the calls of a program
* `Obtainable`: the byte count is not narrowed, or `growproc` refuses it
* `HeapSafe`: the blocks are apart and in the heap, and what `malloc` returns is such a block

## Main results

* `growproc_size`: the sizes are those of the kernel
* `free_spec`, `malloc_spec`: what the functions do
* `malloc_safe`: the heap is sound in every run that meets the condition
* `malloc_behind_break`: and in a run that does not, it is not
-/

namespace Xv6.Umalloc

/-! ## The code -/

/-- `Header`. -/
structure Header where
  ptr : Nat := 0
  size : Nat := 0
deriving DecidableEq

/-- `sizeof(Header)`. -/
abbrev headerSize : Nat := 16

/-- Where the image of the program has `base`, and where its heap starts. -/
structure Layout where
  base : Nat
  heapStart : Nat
  base_pos : 0 < base
  base_below : base + headerSize ≤ heapStart

/-- A block in use, by its header, with the bytes that were asked for. -/
structure Block where
  header : Nat
  nbytes : Nat
deriving DecidableEq

/-- The memory, `freep` and the size of the process, with the blocks in use. -/
structure State where
  mem : Nat → Header
  freep : Nat := 0
  sz : Nat
  used : List Block := []

/-- Why a call does not return. -/
inductive Stop
  | fuel
  | killed
deriving DecidableEq

def State.setPtr (s : State) (a v : Nat) :
    State := { s with mem := Function.update s.mem a { s.mem a with ptr := v } }

def State.setSize (s : State) (a n : Nat) :
    State := { s with mem := Function.update s.mem a { s.mem a with size := n } }

@[simp] theorem State.setSize_ptr (s : State) (a n x : Nat) :
    ((s.setSize a n).mem x).ptr = (s.mem x).ptr := by
  unfold State.setSize
  dsimp only
  by_cases hx : x = a
  · rw [hx, Function.update_self]
  · rw [Function.update_of_ne hx]

@[simp] theorem State.setSize_self (s : State) (a n : Nat) : ((s.setSize a n).mem a).size = n := by
  unfold State.setSize
  dsimp only
  rw [Function.update_self]

theorem State.setPtr_setSize (s : State) (a v n : Nat) :
    (s.setSize a n).setPtr a v = { s with mem := Function.update s.mem a ⟨v, n⟩ } := by
  unfold State.setPtr State.setSize
  dsimp only
  rw [Function.update_idem, Function.update_self]

/-- A bound on the turns of the loops. -/
def State.fuel (s : State) : Nat := 2 * s.sz + 4

/-- The loop of `free`: the free block behind which `bp` belongs. -/
def freeLoop (mem : Nat → Header) (bp : Nat) : Nat → Nat → Except Stop Nat
  | 0, _ => .error .fuel
  | n + 1, p =>
    -- Between two blocks of the list, which is in the order of addresses.
    if p < bp ∧ bp < (mem p).ptr then .ok p
    -- Or at its end, where the list goes back to its start.
    else if (mem p).ptr ≤ p ∧ (p < bp ∨ bp < (mem p).ptr) then .ok p
    else freeLoop mem bp n (mem p).ptr

/-- `bp` is joined with the block behind it, or points to that. -/
def joinNext (s : State) (bp p : Nat) : State :=
  if bp + headerSize * (s.mem bp).size = (s.mem p).ptr then
    -- The sizes are `uint`s, and the sum wraps.
    let s := s.setSize bp (u32 ((s.mem bp).size + (s.mem (s.mem p).ptr).size))
    s.setPtr bp (s.mem (s.mem p).ptr).ptr
  else s.setPtr bp (s.mem p).ptr

/-- `p` is joined with `bp`, or points to it. -/
def joinPrev (s : State) (bp p : Nat) : State :=
  if p + headerSize * (s.mem p).size = bp then
    let s := s.setSize p (u32 ((s.mem p).size + (s.mem bp).size))
    s.setPtr p (s.mem bp).ptr
  else s.setPtr p bp

/-- `free`. -/
def free (s : State) (ap : Nat) : Except Stop State :=
  let bp := ap - headerSize
  match freeLoop s.mem bp s.fuel s.freep with
  | .error e => .error e
  | .ok p => .ok { joinPrev (joinNext s bp p) bp p with freep := p }

/-- `growproc`, on the size of the process: the new size, none for `-1`. -/
def growproc (heapStart : Nat) (n : Int) (sz : Nat) : Option Nat :=
  if 0 < n then if 100 * 1024 * 1024 < u64 (sz + n.toNat) then none else some (u64 (sz + n.toNat))
  else if n < 0 then
    if shrunkSize sz n < heapStart then none
    -- `uvmdealloc` returns the old size where the new one is not smaller.
    else if sz ≤ shrunkSize sz n then some sz
    else some (shrunkSize sz n)
  else some sz

/-- `sbrk`: the old size, none for `SBRK_ERROR`. -/
def sbrk (L : Layout) (n : Int) (s : State) : Option (Nat × State) :=
  (growproc L.heapStart n s.sz).map fun sz => (s.sz, { s with sz := sz })

/-- The argument of `sbrk` for a number of units: the byte count, narrowed to an `int`. -/
def sbrkCount (nu : Nat) : Int := (BitVec.ofNat 32 (nu * headerSize)).toInt

/-- `morecore`, `0` when there is no memory. `mapped` says whether the page of the old break is
mapped, which decides about a store behind the new one. -/
def morecore (L : Layout) (mapped : Bool) (s : State) (nunits : Nat) : Except Stop (Nat × State) :=
  let nu := if nunits < 4096 then 4096 else nunits
  match sbrk L (sbrkCount nu) s with
  | none => .ok (0, s)
  | some (p, s) =>
    -- The header is written at the old break, even when the break has come down.
    if s.sz < p + headerSize ∧ mapped = false then .error .killed
    else
      match free (s.setSize p nu) (p + headerSize) with
      | .error e => .error e
      | .ok s => .ok (s.freep, s)

/-- A block that is large enough is taken, or the end of it. -/
def allocate (s : State) (prevp p nunits : Nat) : Nat × State :=
  -- An exact fit leaves the list.
  if (s.mem p).size = nunits then
    (p + headerSize, { s.setPtr prevp (s.mem p).ptr with freep := prevp })
  else
    -- Otherwise the block is cut at its end, and stays in the list.
    let s := s.setSize p ((s.mem p).size - nunits)
    let q := p + headerSize * (s.mem p).size
    (q + headerSize, { s.setSize q nunits with freep := prevp })

/-- The loop of `malloc`. -/
def mallocLoop (L : Layout) (mapped : Bool) (nunits : Nat) : Nat → State → Nat → Nat →
    Except Stop (Nat × State)
  | 0, _, _, _ => .error .fuel
  | n + 1, s, prevp, p =>
    if nunits ≤ (s.mem p).size then .ok (allocate s prevp p nunits)
    -- Once around: there is no block that is large enough.
    else if p = s.freep then
      match morecore L mapped s nunits with
      | .error e => .error e
      | .ok (q, s) => if q = 0 then .ok (0, s) else mallocLoop L mapped nunits n s q (s.mem q).ptr
    else mallocLoop L mapped nunits n s p (s.mem p).ptr

/-- The units for a request; the sum is one of 64 bits. -/
def units (nbytes : BitVec 32) : Nat := (nbytes.toNat + headerSize - 1) / headerSize + 1

/-- The list before the first request is `base` alone. -/
def start (L : Layout) (s : State) : State :=
  -- `base` has size 0, so it fits no request.
  if s.freep = 0 then { (s.setPtr L.base L.base).setSize L.base 0 with freep := L.base } else s

/-- `malloc`. -/
def malloc (L : Layout) (mapped : Bool) (nbytes : BitVec 32) (s : State) :
    Except Stop (Nat × State) :=
  let s := start L s
  mallocLoop L mapped (units nbytes) s.fuel s s.freep (s.mem s.freep).ptr

/-! ## The calls of a program -/

/-- A call, or a store in a block in use. -/
inductive Event
  | malloc (nbytes : BitVec 32) (mapped : Bool)
  | free (b : Block)
  | store (a : Nat) (h : Header)

/-- The memory of a block, with its header. -/
def State.span (s : State) (b : Block) : Span := ⟨b.header, headerSize * (s.mem b.header).size⟩

/-- **A call that returns.** -/
inductive Step (L : Layout) (s : State) : Event → State → Prop
  | failed {nbytes : BitVec 32} {mapped : Bool} {s' : State} (run : malloc L mapped nbytes s =
      .ok (0, s')) : Step L s (.malloc nbytes mapped) s'
  | malloc {nbytes : BitVec 32} {mapped : Bool} {r : Nat} {s' : State} (some : r ≠ 0)
      (run : malloc L mapped nbytes s = .ok (r, s')) :
      Step L s (.malloc nbytes mapped) { s' with used := ⟨r - headerSize, nbytes.toNat⟩ :: s'.used }
  | free {b : Block} {s' : State} (used : b ∈ s.used)
      (run : free s (b.header + headerSize) = .ok s') :
      Step L s (.free b) { s' with used := s'.used.erase b }
  | store {b : Block} {a : Nat} {h : Header} (used : b ∈ s.used)
      (payload : b.header + headerSize ≤ a) (within : a + headerSize ≤ (s.span b).stop) :
      Step L s (.store a h) { s with mem := Function.update s.mem a h }

/-- **The byte count is not narrowed**, or `growproc` refuses what it is narrowed to. -/
def Obtainable (L : Layout) (s : State) : Event → Prop
  | .malloc nbytes _ =>
    units nbytes * headerSize < 2 ^ 31 ∨ growproc L.heapStart (sbrkCount (units nbytes)) s.sz = none
  | _ => True

/-! ### The size of the process -/

/-- **The sizes are those of the kernel**: `growproc` of the kernel returns `-1`, or sets the
size. -/
theorem growproc_size {t t' : Task} {root tf : Frame} {own : Set Frame} {n r : Int}
    (h : TaskOk t root tf own)
    (hheap : t.p.lazyHeapStart ≤ t.p.sz) (hrun : Xv6.growproc n t = .ok (r, t')) :
    r = -1 ∧ growproc t.p.lazyHeapStart n t.p.sz = none ∨
      r = 0 ∧ growproc t.p.lazyHeapStart n t.p.sz = some t'.p.sz := by
  unfold growproc
  by_cases hpos : 0 < n
  · unfold Xv6.growproc at hrun
    rw [Halting.bind_of_ok (Halting.get_apply _), if_pos hpos] at hrun
    rw [if_pos hpos]
    by_cases hlimit : 100 * 1024 * 1024 < u64 (t.p.sz + n.toNat)
    · rw [if_pos hlimit] at hrun
      obtain ⟨rfl, rfl⟩ := Halting.pure_eq_ok.mp hrun
      exact Or.inl ⟨rfl, if_pos hlimit⟩
    · rw [if_neg hlimit] at hrun
      obtain ⟨_, t₁, hset, hrun⟩ := Halting.bind_eq_ok.mp hrun
      cases hset
      obtain ⟨rfl, rfl⟩ := Halting.pure_eq_ok.mp hrun
      exact Or.inr ⟨rfl, if_neg hlimit⟩
  · obtain ⟨_, -, hgrow⟩ := growproc_spec h hrun
    rw [if_neg hpos]
    cases hgrow with
    | refused why =>
      obtain ⟨hneg, hsmall⟩ := why.resolve_left hpos
      exact Or.inl ⟨rfl, by rw [if_pos hneg, if_pos hsmall]⟩
    | grown pos => exact absurd pos hpos
    | same zero => exact Or.inr ⟨rfl, if_neg (by omega)⟩
    | wrapped neg large =>
      exact Or.inr ⟨rfl, by rw [if_pos neg, if_neg (Nat.not_lt.mpr (hheap.trans large)),
        if_pos large]⟩
    | shrunk neg heap small =>
      exact Or.inr ⟨rfl, by rw [if_pos neg, if_neg (Nat.not_lt.mpr heap),
        if_neg (Nat.not_le.mpr small)]⟩

/-! ## The list -/

/-- The addresses of the free blocks, in order. -/
abbrev starts (fs : List Span) : List Nat := fs.map Span.start

/-- **The list of the free blocks** `fs`: it starts at `base`, which is empty, and is circular. -/
structure Listed (mem : Nat → Header) (base : Nat) (fs : List Span) : Prop where
  linked : Linked (fun a => (mem a).ptr) (base :: (starts fs ++ [base]))
  empty : (mem base).size = 0
  sizes : ∀ f ∈ fs, f.len = headerSize * (mem f.start).size

variable {mem : Nat → Header} {base bp lo hi p q : Nat} {fs A B M u₁ u₂ used : List Span}
    {b c f : Span}

/-- The loop of `free` from a block before `bp` on: it stops at the last one before it. -/
theorem freeLoop_up {ys : List Nat} (hbase : base < bp) (hys : ∀ y ∈ ys, bp < y) :
    ∀ {T : List Nat} {x n : Nat}, Linked (fun a => (mem a).ptr) (x :: (T ++ ys ++ [base])) →
    base ≤ x →
      (x :: T).Pairwise (· < ·) → (∀ t ∈ x :: T, t < bp) → T.length < n →
      freeLoop mem bp n x = .ok ((x :: T).getLast (List.cons_ne_nil x T)) := by
  intro T
  induction T with
  | nil =>
    intro x n hl hx _ hlt hn
    obtain ⟨m, rfl⟩ : ∃ m, n = m + 1 := ⟨n - 1, by simp only [List.length_nil] at hn; omega⟩
    have hxb := hlt x List.mem_cons_self
    rw [freeLoop]
    cases ys with
    | nil =>
      have hnext : (mem x).ptr = base := (linked_cons_cons.mp hl).1
      rw [hnext, if_neg (by omega), if_pos ⟨hx, Or.inl hxb⟩]
      rfl
    | cons y ys =>
      have hnext : (mem x).ptr = y := (linked_cons_cons.mp hl).1
      rw [hnext, if_pos ⟨hxb, hys y List.mem_cons_self⟩]
      rfl
  | cons t T ih =>
    intro x n hl hx hsorted hlt hn
    obtain ⟨m, rfl⟩ : ∃ m, n = m + 1 := ⟨n - 1, by simp only [List.length_cons] at hn; omega⟩
    have hnext : (mem x).ptr = t := (linked_cons_cons.mp hl).1
    have hxt := (List.pairwise_cons.mp hsorted).1 t List.mem_cons_self
    have htb := hlt t (List.mem_cons_of_mem x List.mem_cons_self)
    rw [freeLoop, hnext, if_neg (by omega), if_neg (by omega),
      List.getLast_cons (List.cons_ne_nil t T)]
    exact ih (linked_cons_cons.mp hl).2 (by omega) (List.pairwise_cons.mp hsorted).2
      (fun a ha => hlt a (List.mem_cons_of_mem x ha)) (by simp only [List.length_cons] at hn; omega)

/-- The loop of `free` from a block behind `bp` on: it goes round the end of the list. -/
theorem freeLoop_over {xs : List Nat} (hbase : base < bp)
    (hstart : ∀ n, xs.length < n → freeLoop mem bp n base = .ok ((base :: xs).getLast
      (List.cons_ne_nil base xs))) :
    ∀ {D : List Nat} {y n : Nat}, Linked (fun a => (mem a).ptr) (y :: (D ++ [base])) →
      (y :: D).Pairwise (· < ·) → bp < y → D.length + 1 + xs.length < n →
      freeLoop mem bp n y = .ok ((base :: xs).getLast (List.cons_ne_nil base xs)) := by
  intro D
  induction D with
  | nil =>
    intro y n hl _ hy hn
    obtain ⟨m, rfl⟩ : ∃ m, n = m + 1 := ⟨n - 1, by simp only [List.length_nil] at hn; omega⟩
    have hnext : (mem y).ptr = base := (linked_cons_cons.mp hl).1
    rw [freeLoop, hnext, if_neg (by omega), if_neg (by omega)]
    exact hstart m (by simp only [List.length_nil] at hn; omega)
  | cons d D ih =>
    intro y n hl hsorted hy hn
    obtain ⟨m, rfl⟩ : ∃ m, n = m + 1 := ⟨n - 1, by simp only [List.length_cons] at hn; omega⟩
    have hnext : (mem y).ptr = d := (linked_cons_cons.mp hl).1
    have hyd := (List.pairwise_cons.mp hsorted).1 d List.mem_cons_self
    rw [freeLoop, hnext, if_neg (by omega), if_neg (by omega)]
    exact ih (linked_cons_cons.mp hl).2 (List.pairwise_cons.mp hsorted).2 (by omega)
      (by simp only [List.length_cons] at hn; omega)

/-- The addresses of sorted spans go up. -/
theorem starts_sorted (hfs : fs.Pairwise fun a b => a.stop < b.start) :
    (starts fs).Pairwise (· < ·) := by
  rw [List.pairwise_map]
  refine hfs.imp fun {a b} hab => ?_
  unfold Span.stop at hab
  omega

/-- **The loop of `free` finds** the last block before `bp`, from wherever it starts. -/
theorem freeLoop_spec {x n : Nat} (hl : Listed mem base (A ++ B))
    (hA : Arena lo hi (A ++ B) (u₁ ++ b :: u₂))
    (hbase : base + headerSize ≤ lo) (hbefore : ∀ a ∈ A, a.stop ≤ b.start)
    (hbehind : ∀ c ∈ B, b.stop ≤ c.start)
    (hx : x ∈ base :: starts (A ++ B)) (hn : 2 * (A ++ B).length + 1 < n) :
    freeLoop mem b.start n x = .ok ((base :: starts A).getLast (List.cons_ne_nil base _)) := by
  have hb := hA.inside b (Or.inr (List.mem_append_right u₁ List.mem_cons_self))
  have hbb : base < b.start := by
    simp only [headerSize] at hbase
    omega
  have hxs : ∀ t ∈ starts A, base < t ∧ t < b.start := by
    intro t ht
    obtain ⟨a, ha, rfl⟩ := List.mem_map.mp ht
    have hin := hA.inside a (Or.inl (List.mem_append_left B ha))
    have hle := hbefore a ha
    simp only [headerSize] at hbase
    unfold Span.stop at *
    omega
  have hys : ∀ t ∈ starts B, b.start < t := by
    intro t ht
    obtain ⟨c, hc, rfl⟩ := List.mem_map.mp ht
    have hle := hbehind c hc
    unfold Span.stop at *
    omega
  have hsorted := List.pairwise_append.mp (by
    have hall := starts_sorted hA.sorted
    rwa [starts, List.map_append] at hall)
  have hlinked := hl.linked
  rw [starts, List.map_append] at hlinked
  have hup : ∀ n, (starts A).length < n →
      freeLoop mem b.start n base = .ok ((base :: starts A).getLast (List.cons_ne_nil base _)) := by
    intro n hn
    refine freeLoop_up hbb hys hlinked (Nat.le_refl base) ?_ (fun t ht => ?_) hn
    · exact List.pairwise_cons.mpr ⟨fun t ht => (hxs t ht).1, hsorted.1⟩
    · rcases List.mem_cons.mp ht with rfl | ht
      · exact hbb
      · exact (hxs t ht).2
  rw [List.length_append] at hn
  rcases List.mem_cons.mp hx with rfl | hx
  · apply hup
    rw [List.length_map]
    omega
  · rw [starts, List.map_append] at hx
    rcases List.mem_append.mp hx with hx | hx
    · -- a block before `bp`: the rest of them is linked to it
      obtain ⟨S, T, hST⟩ := List.append_of_mem hx
      have hlen : (starts A).length = S.length + (T.length + 1) := by
        rw [starts, hST, List.length_append, List.length_cons]
      rw [List.length_map] at hlen
      have hrest : Linked (fun a => (mem a).ptr) (x :: (T ++ starts B ++ [base])) := by
        have heq : base :: (A.map Span.start ++ B.map Span.start ++ [base]) =
            (base :: S) ++ x :: (T ++ starts B ++ [base]) := by
          rw [hST]
          simp
        rw [heq] at hlinked
        exact (linked_append_cons.mp hlinked).2
      have hsortedA := hsorted.1
      rw [hST] at hsortedA
      rw [freeLoop_up hbb hys hrest (Nat.le_of_lt (hxs x hx).1)
        (List.pairwise_append.mp hsortedA).2.1
        (fun t ht => (hxs t (by rw [starts, hST]; exact List.mem_append_right S ht)).2) (by omega)]
      congr 1
      apply Option.some_injective
      rw [← List.getLast?_eq_some_getLast, ← List.getLast?_eq_some_getLast, starts, hST,
        ← List.cons_append, List.getLast?_append_cons]
    · obtain ⟨S, D, hSD⟩ := List.append_of_mem hx
      have hlen : (starts B).length = S.length + (D.length + 1) := by
        rw [starts, hSD, List.length_append, List.length_cons]
      rw [List.length_map] at hlen
      have hrest : Linked (fun a => (mem a).ptr) (x :: (D ++ [base])) := by
        have heq : base :: (A.map Span.start ++ B.map Span.start ++ [base]) =
            (base :: A.map Span.start ++ S) ++ x :: (D ++ [base]) := by
          rw [hSD]
          simp
        rw [heq] at hlinked
        exact (linked_append_cons.mp hlinked).2
      have hsortedB := hsorted.2.1
      rw [hSD] at hsortedB
      refine freeLoop_over hbb hup hrest (List.pairwise_append.mp hsortedB).2.1 (hys x hx) ?_
      rw [List.length_map]
      omega

/-! ## `free` -/

/-- The addresses of the list and the block that is freed, in order. -/
theorem starts_ascending (hA : Arena lo hi (A ++ B) (u₁ ++ b :: u₂))
    (hbase : base + headerSize ≤ lo)
    (hbefore : ∀ a ∈ A, a.stop ≤ b.start) (hbehind : ∀ c ∈ B, b.stop ≤ c.start) :
    (base :: (starts A ++ b.start :: starts B)).Pairwise (· < ·) := by
  have hb := hA.inside b (Or.inr (List.mem_append_right u₁ List.mem_cons_self))
  have hin := fun f hf => hA.inside f (Or.inl hf)
  obtain ⟨hsortedA, hsortedB, hAB⟩ := List.pairwise_append.mp hA.sorted
  have hlt : ∀ f ∈ A ++ B, base < f.start := by
    intro f hf
    have hlo := (hin f hf).1
    simp only [headerSize] at hbase
    omega
  have hbase' : base < b.start := by
    simp only [headerSize] at hbase
    omega
  refine List.pairwise_cons.mpr ⟨fun x hx => ?_, List.pairwise_append.mpr ⟨starts_sorted hsortedA,
    List.pairwise_cons.mpr ⟨fun x hx => ?_, starts_sorted hsortedB⟩, fun x hx y hy => ?_⟩⟩
  · rcases List.mem_append.mp hx with hx | hx
    · obtain ⟨a, ha, rfl⟩ := List.mem_map.mp hx
      exact hlt a (List.mem_append_left B ha)
    · rcases List.mem_cons.mp hx with rfl | hx
      · exact hbase'
      · obtain ⟨c, hc, rfl⟩ := List.mem_map.mp hx
        exact hlt c (List.mem_append_right A hc)
  · obtain ⟨c, hc, rfl⟩ := List.mem_map.mp hx
    have hle := hbehind c hc
    unfold Span.stop at *
    omega
  · obtain ⟨a, ha, rfl⟩ := List.mem_map.mp hx
    have hle := hbefore a ha
    have hpos := hin a (List.mem_append_left B ha)
    rcases List.mem_cons.mp hy with rfl | hy
    · unfold Span.stop at *
      omega
    · obtain ⟨c, hc, rfl⟩ := List.mem_map.mp hy
      have hlt := hAB a ha c hc
      unfold Span.stop at *
      omega

/-- The block that the last block before `bp` points to is the first one behind it. -/
theorem Listed.next_last (hl : Listed mem base (A ++ B)) :
    (mem ((base :: starts A).getLast (List.cons_ne_nil base _))).ptr = (starts B ++
      [base]).head (by simp) := by
  have hlinked := hl.linked
  have hsplit : base :: (starts (A ++ B) ++ [base]) = (base :: starts A).dropLast ++
      (base :: starts A).getLast (List.cons_ne_nil base _) :: (starts B ++ [base]) := by
    rw [← List.singleton_append (l := starts B ++ [base]), ← List.append_assoc,
      List.dropLast_concat_getLast, starts, List.map_append, List.append_assoc, List.cons_append]
  rw [hsplit] at hlinked
  exact hlinked.next_eq _

/-- **The block is joined with what is behind it**: the free blocks behind `bp` are those of `M`,
which become part of it, and those of `B'`. -/
theorem joinNext_spec {s : State} (hl : Listed s.mem base (A ++ B))
    (hA : Arena lo hi (A ++ B) (u₁ ++ b :: u₂))
    (hbase : base + headerSize ≤ lo) (hroom : hi ≤ lo + 100 * 1024 * 1024)
    (hbehind : ∀ c ∈ B, b.stop ≤ c.start) (hsize : b.len = headerSize * (s.mem b.start).size)
    (hp : (s.mem p).ptr = (starts B ++ [base]).head (by simp)) :
    ∃ (M B' : List Span) (c : Span) (h : Header), B = M ++ B' ∧ c.start = b.start ∧ b.len ≤ c.len ∧
    c.stop ≤ hi ∧
      c.len = headerSize * h.size ∧ h.ptr = (starts B' ++ [base]).head (by simp) ∧
      joinNext s b.start p = { s with mem := Function.update s.mem b.start h } ∧
      (∀ a ∈ B', c.stop < a.start) ∧
      ∀ u : Span, 0 < u.len → b.Disjoint u → (∀ m ∈ M, m.Disjoint u) → c.Disjoint u := by
  have hb := hA.inside b (Or.inr (List.mem_append_right u₁ List.mem_cons_self))
  have hstop : b.start + headerSize * (s.mem b.start).size = b.stop := by rw [← hsize, Span.stop]
  unfold joinNext
  by_cases hadj : b.start + headerSize * (s.mem b.start).size = (s.mem p).ptr
  · rw [if_pos hadj]
    rw [hstop, hp] at hadj
    cases B with
    | nil =>
      -- there is no block behind it, and `base` is before it
      have hlast : b.stop = base := hadj
      unfold Span.stop at hlast
      simp only [headerSize] at hbase
      omega
    | cons c B' =>
      have hnext : b.stop = c.start := hadj
      have hcmem : c ∈ A ++ c :: B' := List.mem_append_right A List.mem_cons_self
      have hc := hA.inside c (Or.inl hcmem)
      have hcsize := hl.sizes c hcmem
      have hptr : (s.mem p).ptr = c.start := hp
      have hlinked := hl.linked
      rw [starts, List.map_append, List.map_cons, List.append_assoc, List.cons_append,
        ← List.cons_append] at hlinked
      have hsum : u32 ((s.mem b.start).size + (s.mem c.start).size) = (s.mem b.start).size + (s.mem
        c.start).size := by
        unfold Span.stop at *
        unfold u32
        simp only [headerSize] at hsize hcsize
        omega
      refine ⟨[c], B', ⟨b.start, b.len + c.len⟩,
        ⟨(s.mem c.start).ptr, (s.mem b.start).size + (s.mem c.start).size⟩,
        rfl, rfl, Nat.le_add_right _ _, ?_, ?_, hlinked.next_eq _, ?_, fun a ha =>
        ?_, fun u hu hdb hdc => ?_⟩
      · unfold Span.stop at *
        dsimp only
        omega
      · dsimp only
        rw [hsize, hcsize, Nat.mul_add]
      · dsimp only
        rw [State.setPtr_setSize, State.setSize_ptr, State.setSize_ptr, hptr, hsum]
      · have hsorted := (List.pairwise_cons.mp (List.pairwise_append.mp hA.sorted).2.1).1 a ha
        unfold Span.stop at *
        dsimp only
        omega
      · have hcu := hdc c (List.mem_singleton_self c)
        unfold Span.Disjoint Span.stop at *
        dsimp only
        omega
  · rw [if_neg hadj]
    refine ⟨[], B, b, ⟨(s.mem p).ptr, (s.mem b.start).size⟩, rfl, rfl, Nat.le_refl _, hb.2.2,
      hsize, hp, rfl, fun a ha => ?_, fun u _ hdb _ => hdb⟩
    have hle := hbehind a ha
    refine Nat.lt_of_le_of_ne hle fun heq => hadj ?_
    rw [hstop, heq, hp]
    cases B with
    | nil => exact absurd ha List.not_mem_nil
    | cons c B' =>
      rcases List.mem_cons.mp ha with rfl | ha
      · rfl
      · -- the blocks are in order, so the one that starts at the end is the first one
        have hsorted := (List.pairwise_cons.mp (List.pairwise_append.mp hA.sorted).2.1).1 a ha
        have hc := hbehind c List.mem_cons_self
        unfold Span.stop at *
        omega

/-- The list stays when its headers do. -/
theorem Listed.congr {mem' : Nat → Header} (hl : Listed mem base fs)
    (heq : ∀ x ∈ base :: starts fs, mem' x = mem x) : Listed mem' base fs where
  linked := hl.linked.congr fun x hx => by
    rw [← List.cons_append, List.dropLast_concat] at hx
    rw [heq x hx]
  empty := by
    rw [heq base List.mem_cons_self]
    exact hl.empty
  sizes f hf := by
    rw [heq f.start (List.mem_cons_of_mem base (List.mem_map_of_mem hf))]
    exact hl.sizes f hf

/-- The list behind a block stays when its headers do. -/
theorem Listed.behind {mem' : Nat → Header} (hl : Listed mem base (A ++ B))
    (heq : ∀ x ∈ starts B, mem' x = mem x) :
    Linked (fun a => (mem' a).ptr) (starts B ++ [base]) := by
  have hlinked := hl.linked
  rw [starts, List.map_append, List.append_assoc, ← List.cons_append] at hlinked
  refine hlinked.right.congr fun x hx => ?_
  rw [List.dropLast_concat] at hx
  rw [heq x hx]

/-- **A block is put into the list**: the last block before it points to it, and it points to the
first one of those that stay behind it. -/
theorem Listed.link {h : Header} (hl : Listed mem base (A ++ (M ++ B)))
    (hasc : (base :: (starts A ++ c.start :: starts B)).Pairwise (· < ·))
    (hsize : c.len = headerSize * h.size) (hptr : h.ptr = (starts B ++ [base]).head (by simp))
    (hp : p = (base :: starts A).getLast (List.cons_ne_nil base _)) :
    Listed (Function.update (Function.update mem c.start h) p { mem p with ptr := c.start }) base
    (A ++ c :: B) := by
  have hmem : p ∈ base :: starts A := by
    rw [hp]
    exact List.getLast_mem _
  -- The list is split at the block before the new one: only that block's pointer changes.
  have hsplit : base :: starts A = (base :: starts A).dropLast ++ [p] := by
    rw [hp, List.dropLast_concat_getLast]
  have hnodup : (base :: starts A ++ c.start :: starts B).Nodup := hasc.imp Nat.ne_of_lt
  obtain ⟨hA, hB, hAB⟩ := List.nodup_append.mp hnodup
  have hpc : p ≠ c.start := hAB p hmem c.start List.mem_cons_self
  have hpB : ∀ x ∈ starts B, x ≠ p := fun x hx heq =>
    hAB p hmem x (List.mem_cons_of_mem _ hx) heq.symm
  have hcB : ∀ x ∈ starts B, x ≠ c.start := fun x hx heq => (List.nodup_cons.mp hB).1 (heq ▸ hx)
  have hcA : ∀ x ∈ base :: starts A, x ≠ c.start := fun x hx => hAB x hx c.start List.mem_cons_self
  have hsizeA : ∀ x ∈ base :: starts A,
      (Function.update (Function.update mem c.start h) p { mem p with ptr := c.start } x).size =
      (mem x).size := by
    intro x hx
    by_cases hxp : x = p
    · rw [hxp, Function.update_self]
    · rw [Function.update_of_ne hxp, Function.update_of_ne (hcA x hx)]
  -- the blocks behind the new one are not touched
  have hbehind : ∀ x ∈ starts B,
      Function.update (Function.update mem c.start h) p { mem p with ptr := c.start }
      x = mem x := by
    intro x hx
    rw [Function.update_of_ne (hpB x hx), Function.update_of_ne (hcB x hx)]
  rw [← List.append_assoc] at hl
  have hend := hl.behind hbehind
  refine ⟨?_, ?_, fun f hf => ?_⟩
  -- The chain runs through the old blocks up to `p`, from there to the new one, and from it to the
  -- blocks behind.
  · have hlinked := hl.linked
    rw [starts, List.map_append, List.map_append, List.append_assoc, List.append_assoc,
      ← List.cons_append] at hlinked
    rw [starts, List.map_append, List.map_cons, List.append_assoc, ← List.cons_append]
    change Linked _ (base :: starts A ++ _) at hlinked
    change Linked _ (base :: starts A ++ _)
    rw [hsplit, List.append_assoc] at hlinked ⊢
    refine hlinked.splice (fun y hy => ?_) ?_
    · have hyA : y ∈ base :: starts A := List.mem_of_mem_dropLast hy
      have hyp : y ≠ p := by
        intro heq
        rw [hsplit] at hA
        exact (List.nodup_append.mp hA).2.2 y hy p (List.mem_singleton_self p) heq
      rw [Function.update_of_ne hyp, Function.update_of_ne (hcA y hyA)]
    · refine linked_cons_cons.mpr ⟨by rw [Function.update_self], ?_⟩
      refine hend.cons (by simp) ?_
      rw [Function.update_of_ne hpc.symm, Function.update_self]
      exact hptr
  · rw [hsizeA base List.mem_cons_self]
    exact hl.empty
  · rcases List.mem_append.mp hf with hf | hf
    · rw [hsizeA f.start (List.mem_cons_of_mem base (List.mem_map_of_mem hf))]
      exact hl.sizes f (List.mem_append_left _ (List.mem_append_left _ hf))
    · rcases List.mem_cons.mp hf with rfl | hf
      · rw [Function.update_of_ne hpc.symm, Function.update_self]
        exact hsize
      · rw [hbehind f.start (List.mem_map_of_mem hf)]
        exact hl.sizes f (List.mem_append_right _ hf)

/-- **A block is joined with the last one before it.** -/
theorem Listed.merge {h : Header} {x : Nat} (hl : Listed mem base (A ++ f :: (M ++ B)))
    (hasc : (base :: (starts (A ++ [f]) ++ x :: starts B)).Pairwise (· < ·))
    (hsize : c.len = headerSize * h.size) (hptr : h.ptr = (starts B ++ [base]).head (by simp)) :
    Listed (Function.update (Function.update mem x h) f.start ⟨h.ptr, (mem f.start).size + h.size⟩)
    base
      (A ++ ⟨f.start, f.len + c.len⟩ :: B) := by
  have hfmem : f ∈ A ++ f :: (M ++ B) := List.mem_append_right A List.mem_cons_self
  rw [starts, List.map_append, List.map_singleton, List.append_assoc, List.singleton_append,
    ← List.cons_append] at hasc
  have hnodup : (base :: starts A ++ f.start :: x :: starts B).Nodup := hasc.imp Nat.ne_of_lt
  obtain ⟨-, hB, hAB⟩ := List.nodup_append.mp hnodup
  obtain ⟨hfB, hB⟩ := List.nodup_cons.mp hB
  have hsame : ∀ y, y ∈ base :: starts A ∨ y ∈ starts B →
      Function.update (Function.update mem x h) f.start ⟨h.ptr, (mem f.start).size + h.size⟩
      y = mem y := by
    intro y hy
    have hyf : y ≠ f.start := by
      rcases hy with hy | hy
      · exact hAB y hy f.start List.mem_cons_self
      · exact fun heq => hfB (heq ▸ List.mem_cons_of_mem x hy)
    have hyx : y ≠ x := by
      rcases hy with hy | hy
      · exact hAB y hy x (List.mem_cons_of_mem _ List.mem_cons_self)
      · exact fun heq => (List.nodup_cons.mp hB).1 (heq ▸ hy)
    rw [Function.update_of_ne hyf, Function.update_of_ne hyx]
  have hl' : Listed mem base (A ++ f :: M ++ B) := by
    rwa [List.append_assoc, List.cons_append]
  have hend := hl'.behind fun y hy => hsame y (Or.inr hy)
  refine ⟨?_, ?_, fun g hg => ?_⟩
  · have hlinked := hl.linked
    rw [starts, List.map_append, List.map_cons, List.append_assoc, ← List.cons_append] at hlinked ⊢
    refine hlinked.splice (fun y hy => ?_) ?_
    · rw [hsame y (Or.inl hy)]
    · refine hend.cons (by simp) ?_
      rw [Function.update_self]
      exact hptr
  · rw [hsame base (Or.inl List.mem_cons_self)]
    exact hl.empty
  · rcases List.mem_append.mp hg with hg | hg
    · rw [hsame g.start (Or.inl (List.mem_cons_of_mem base (List.mem_map_of_mem hg)))]
      exact hl.sizes g (List.mem_append_left _ hg)
    · rcases List.mem_cons.mp hg with rfl | hg
      · rw [Function.update_self]
        dsimp only
        rw [hl.sizes f hfmem, hsize, Nat.mul_add]
      · rw [hsame g.start (Or.inr (List.mem_map_of_mem hg))]
        exact hl.sizes g (List.mem_append_right _
          (List.mem_cons_of_mem f (List.mem_append_right M hg)))

/-- The blocks in use keep what is in them. -/
def Untouched (used : List Span) (s s' : State) : Prop :=
  ∀ u ∈ used, ∀ a, u.start ≤ a → a < u.stop → s'.mem a = s.mem a

theorem Untouched.trans {s s' s'' : State} (h : Untouched used s s') (h' : Untouched used s' s'') :
    Untouched used s s'' := fun u hu a hlo hhi => (h' u hu a hlo hhi).trans (h u hu a hlo hhi)

/-- The header of a free block is no part of a block in use. -/
theorem not_mem_list (hA : Arena lo hi fs used) (hbase : base + headerSize ≤ lo) {u : Span}
    {a : Nat} (hu : u ∈ used)
    (hlo : u.start ≤ a) (hhi : a < u.stop) (hx : p ∈ base :: starts fs) : a ≠ p := by
  have hin := hA.inside u (Or.inr hu)
  rcases List.mem_cons.mp hx with rfl | hx
  · simp only [headerSize] at hbase
    omega
  · obtain ⟨f, hf, rfl⟩ := List.mem_map.mp hx
    have hpos := hA.inside f (Or.inl hf)
    have hd := hA.cross f hf u hu
    unfold Span.Disjoint Span.stop at *
    omega

/-- `joinPrev` behind `joinNext`, when the block before `bp` touches it. -/
theorem joinPrev_adjacent {s : State} {h : Header} (hne : p ≠ bp)
    (hadj : p + headerSize * (s.mem p).size = bp)
    (hsum : u32 ((s.mem p).size + h.size) = (s.mem p).size + h.size) :
    joinPrev { s with mem := Function.update s.mem bp h } bp p = { s with
      mem := Function.update (Function.update s.mem bp h) p ⟨h.ptr, (s.mem p).size + h.size⟩ } := by
  unfold joinPrev
  simp only [Function.update_of_ne hne, Function.update_self, if_pos hadj, hsum,
    State.setPtr_setSize, State.setSize_ptr]

/-- `joinPrev` behind `joinNext`, when it does not. -/
theorem joinPrev_apart {s : State} {h : Header} (hne : p ≠ bp)
    (hadj : p + headerSize * (s.mem p).size ≠ bp) :
    joinPrev { s with mem := Function.update s.mem bp h } bp p = { s with
      mem := Function.update (Function.update s.mem bp h) p { s.mem p with ptr := bp } } := by
  unfold joinPrev State.setPtr
  simp only [Function.update_of_ne hne, if_neg hadj]

/-- **What `free` does**: the block becomes part of a free one, and the blocks in use stay. -/
theorem free_spec {s : State} (hl : Listed s.mem base fs) (hA : Arena lo hi fs (u₁ ++ b :: u₂))
    (hbase : base + headerSize ≤ lo) (hroom : hi ≤ lo + 100 * 1024 * 1024) (hhi : hi ≤ s.sz)
    (hsize : b.len = headerSize * (s.mem b.start).size) (hfreep : s.freep ∈ base :: starts fs) :
    ∃ fs' s', free s (b.start + headerSize) = .ok s' ∧ Listed s'.mem base fs' ∧
    Arena lo hi fs' (u₁ ++ u₂) ∧
      s'.freep ∈ base :: starts fs' ∧ s'.sz = s.sz ∧ s'.used = s.used ∧ Untouched (u₁ ++ u₂) s s' ∧
      fs'.length ≤ fs.length + 1 ∧ ∃ f ∈ fs', b.len ≤ f.len := by
  have hbmem : b ∈ u₁ ++ b :: u₂ := List.mem_append_right u₁ List.mem_cons_self
  obtain ⟨A, B, rfl, hbefore, hbehind⟩ := hA.exists_split hbmem
  have hb := hA.inside b (Or.inr hbmem)
  have hfuel : 2 * (A ++ B).length + 1 < s.fuel := by
    have hlen := hA.length_le
    unfold State.fuel
    omega
  have hloop := freeLoop_spec hl hA hbase hbefore hbehind hfreep hfuel
  have hnext := hl.next_last
  have hasc := starts_ascending hA hbase hbefore hbehind
  generalize hp : (base :: starts A).getLast (List.cons_ne_nil base _) = p at hloop hnext
  obtain ⟨M, B', c, h, rfl, hstart, hlen, hcstop, hcsize, hhptr, hjoin, hbehind', hcover⟩ :=
    joinNext_spec hl hA hbase hroom hbehind hsize hnext
  have hclo : lo ≤ c.start := by
    rw [hstart]
    exact hb.1
  have hsub : (base :: (starts A ++ c.start :: starts B')).Sublist (base :: (starts A ++
    b.start :: starts (M ++ B'))) := by
    have htail : (starts B').Sublist (starts (M ++ B')) := by
      rw [starts, starts, List.map_append]
      exact List.sublist_append_right _ _
    rw [hstart]
    exact ((List.Sublist.refl _).append (htail.cons_cons _)).cons_cons _
  have hasc' := hasc.sublist hsub
  have hperm : (u₁ ++ b :: u₂).Perm (b :: (u₁ ++ u₂)) := List.perm_middle
  have hother : ∀ u ∈ u₁ ++ u₂, u ∈ u₁ ++ b :: u₂ := fun u hu =>
    hperm.mem_iff.mpr (List.mem_cons_of_mem b hu)
  have hpmem : p ∈ base :: starts A := by
    rw [← hp]
    exact List.getLast_mem _
  have hpb : p ≠ b.start := by
    have hd := (List.pairwise_append.mp (show (base :: starts A ++ b.start :: _).Pairwise
      (· < ·) from hasc)).2.2
    exact Nat.ne_of_lt (hd p hpmem b.start List.mem_cons_self)
  -- neither the header of the block nor that of the one before it is part of a block in use
  have hkept : ∀ u ∈ u₁ ++ u₂, ∀ a, u.start ≤ a → a < u.stop → a ≠ b.start ∧ a ≠ p := by
    intro u hu a hlo hlt
    constructor
    · have hd := (List.pairwise_cons.mp (hA.perm hperm).disjoint).1 u hu
      unfold Span.Disjoint Span.stop at *
      omega
    · refine not_mem_list hA hbase (hother u hu) hlo hlt ?_
      rw [starts, List.map_append, ← List.cons_append]
      exact List.mem_append_left _ hpmem
  have hrun : free s (b.start + headerSize) =
    .ok { joinPrev (joinNext s b.start p) b.start p with freep := p } := by
    unfold free
    dsimp only
    rw [Nat.add_sub_cancel, hloop]
  by_cases hadj : p + headerSize * (s.mem p).size = b.start
  · -- `p` is not `base`, which is empty
    obtain ⟨A', f, rfl⟩ : ∃ A' f, A = A' ++ [f] := by
      rcases List.eq_nil_or_concat A with rfl | ⟨A', f, rfl⟩
      · have hpbase : p = base := hp.symm
        rw [hpbase, hl.empty] at hadj
        exact absurd (hpbase.trans hadj) hpb
      · exact ⟨A', f, by rw [List.concat_eq_append]⟩
    have hpf : f.start = p := by
      rw [← hp]
      simp [starts]
    subst hpf
    have hfmem : f ∈ A' ++ [f] ++ (M ++ B') :=
      List.mem_append_left _ (List.mem_append_right _ (List.mem_singleton_self f))
    have hf := hA.inside f (Or.inl hfmem)
    have hfsize := hl.sizes f hfmem
    rw [List.append_assoc, List.singleton_append] at hl
    have hsorted := List.pairwise_append.mp hA.sorted
    have hfstop : f.stop = c.start := by
      rw [hstart, ← hadj, ← hfsize, Span.stop]
    have hsum : u32 ((s.mem f.start).size + h.size) = (s.mem f.start).size + h.size := by
      unfold Span.stop at *
      unfold u32
      simp only [headerSize] at hcsize hfsize
      omega
    rw [hjoin, joinPrev_adjacent hpb hadj hsum] at hrun
    have hnew : Arena lo hi (A' ++ ([f] ++ M ++ B')) (u₁ ++ b :: u₂) := by
      rwa [← List.append_assoc, ← List.append_assoc, List.append_assoc]
    refine ⟨A' ++ ⟨f.start, f.len + c.len⟩ :: B', _, hrun, hl.merge (hstart ▸ hasc') hcsize hhptr,
      ?_, ?_, rfl, rfl,
      fun u hu a hlo hlt => ?_, by simp; omega, _, List.mem_append_right _ List.mem_cons_self, ?_⟩
    · refine hnew.release (fun a ha => ?_) (fun a ha => ?_) hf.1 ?_ ?_ fun u hu hdb hdm => ?_
      · exact (List.pairwise_append.mp hsorted.1).2.2 a ha f (List.mem_singleton_self f)
      · have hlt := hbehind' a ha
        unfold Span.stop at *
        dsimp only
        omega
      · unfold Span.stop at *
        dsimp only
        omega
      · exact Nat.lt_of_lt_of_le hf.2.1 (Nat.le_add_right _ _)
      · have hc := hcover u hu hdb fun m hm => hdm m (List.mem_append_right _ hm)
        have hfu := hdm f (List.mem_append_left _ (List.mem_singleton_self f))
        unfold Span.Disjoint Span.stop at *
        dsimp only
        omega
    · rw [starts, List.map_append, List.map_cons]
      exact List.mem_cons_of_mem _ (List.mem_append_right _ List.mem_cons_self)
    · obtain ⟨hab, hap⟩ := hkept u hu a hlo hlt
      dsimp only
      rw [Function.update_of_ne hap, Function.update_of_ne hab]
    · exact hlen.trans (Nat.le_add_left _ _)
  · rw [hjoin, joinPrev_apart hpb hadj] at hrun
    refine ⟨A ++ c :: B', _, hrun, ?_, ?_, ?_, rfl, rfl,
      fun u hu a hlo hlt => ?_, by simp; omega, c, List.mem_append_right _ List.mem_cons_self, hlen⟩
    · rw [← hstart]
      exact hl.link hasc' hcsize hhptr hp.symm
    · refine hA.release (fun a ha => ?_) hbehind' hclo hcstop (Nat.lt_of_lt_of_le hb.2.1 hlen)
        hcover
      have hle := hbefore a ha
      rw [hstart]
      refine Nat.lt_of_le_of_ne hle fun heq => hadj ?_
      obtain ⟨A', f, rfl⟩ : ∃ A' f, A = A' ++ [f] := by
        rcases List.eq_nil_or_concat A with rfl | ⟨A', f, rfl⟩
        · exact absurd ha List.not_mem_nil
        · exact ⟨A', f, by rw [List.concat_eq_append]⟩
      have hfmem : f ∈ A' ++ [f] ++ (M ++ B') :=
        List.mem_append_left _ (List.mem_append_right _ (List.mem_singleton_self f))
      have hpf : f.start = p := by
        rw [← hp]
        simp [starts]
      rw [← hpf, ← hl.sizes f hfmem]
      rcases List.mem_append.mp ha with ha | ha
      · -- there is no room for `f` behind a block that ends at `bp`
        have hlast := (List.pairwise_append.mp (List.pairwise_append.mp hA.sorted).1).2.2 a ha f
          (List.mem_singleton_self f)
        have hf := hA.inside f (Or.inl hfmem)
        have hfb := hbefore f (List.mem_append_right _ (List.mem_singleton_self f))
        unfold Span.stop at *
        omega
      · rw [← List.mem_singleton.mp ha]
        exact heq
    · rw [starts, List.map_append, ← List.cons_append]
      exact List.mem_append_left _ hpmem
    · obtain ⟨hab, hap⟩ := hkept u hu a hlo hlt
      dsimp only
      rw [Function.update_of_ne hap, Function.update_of_ne hab]

/-! ## `malloc` -/

/-- **A block leaves the list**: the last one before it points to the first one behind it. -/
theorem Listed.unlink (hl : Listed mem base (A ++ f :: B))
    (hnodup : (base :: starts (A ++ f :: B)).Nodup)
    (hp : p = (base :: starts A).getLast (List.cons_ne_nil base _)) :
    Listed (Function.update mem p { mem p with ptr := (mem f.start).ptr }) base (A ++ B) := by
  have hsplit : base :: starts A = (base :: starts A).dropLast ++ [p] := by
    rw [hp, List.dropLast_concat_getLast]
  have hmem : p ∈ base :: starts A := by
    rw [hp]
    exact List.getLast_mem _
  rw [starts, List.map_append, List.map_cons, ← List.cons_append] at hnodup
  obtain ⟨hA, hB, hAB⟩ := List.nodup_append.mp hnodup
  have hsize : ∀ x, (Function.update mem p { mem p with ptr := (mem f.start).ptr } x).size =
    (mem x).size := by
    intro x
    by_cases hx : x = p
    · rw [hx, Function.update_self]
    · rw [Function.update_of_ne hx]
  have hbehind : ∀ x ∈ starts B, Function.update mem p { mem p with ptr := (mem f.start).ptr }
    x = mem x := by
    intro x hx
    rw [Function.update_of_ne fun heq => hAB p hmem x (List.mem_cons_of_mem _ hx) heq.symm]
  have hl' : Listed mem base (A ++ [f] ++ B) := by
    rwa [List.append_assoc, List.singleton_append]
  have hlinked := hl.linked
  rw [starts, List.map_append, List.map_cons, List.append_assoc, List.cons_append,
    ← List.cons_append] at hlinked
  have hnext := hlinked.next_eq (by simp)
  refine ⟨?_, by rw [hsize, hl.empty], fun g hg => ?_⟩
  · rw [starts, List.map_append, List.append_assoc, ← List.cons_append]
    change Linked _ (base :: starts A ++ _) at hlinked
    change Linked _ (base :: starts A ++ _)
    rw [hsplit, List.append_assoc] at hlinked ⊢
    refine hlinked.splice (fun y hy => ?_) ?_
    · have hyp : y ≠ p := by
        intro heq
        have hA' : (base :: starts A).Nodup := hA
        rw [hsplit] at hA'
        exact (List.nodup_append.mp hA').2.2 y hy p (List.mem_singleton_self p) heq
      rw [Function.update_of_ne hyp]
    · refine (hl'.behind hbehind).cons (by simp) ?_
      rw [Function.update_self]
      exact hnext
  · rw [hsize]
    refine hl.sizes g ?_
    rcases List.mem_append.mp hg with hg | hg
    · exact List.mem_append_left _ hg
    · exact List.mem_append_right _ (List.mem_cons_of_mem f hg)

/-- The addresses of the list are different. -/
theorem starts_nodup (hA : Arena lo hi fs used) (hbase : base + headerSize ≤ lo) :
    (base :: starts fs).Nodup := by
  refine List.nodup_cons.mpr ⟨fun hmem => ?_, (starts_sorted hA.sorted).imp Nat.ne_of_lt⟩
  obtain ⟨f, hf, heq⟩ := List.mem_map.mp hmem
  have hlo := (hA.inside f (Or.inl hf)).1
  simp only [headerSize] at hbase
  omega

/-- The list, its entry and the blocks, for memory that starts at `lo`. -/
structure Heap (base lo : Nat) (s : State) (fs used : List Span) : Prop where
  list : Listed s.mem base fs
  arena : Arena lo s.sz fs used
  entry : s.freep ∈ base :: starts fs

/-- The node that points to a block with something in it is the last one before that. -/
theorem Listed.exists_pred {x z : Nat} (hl : Listed mem base fs) (hx : x ∈ base :: starts fs)
    (hz : (mem x).ptr = z) (hpos : 0 < (mem z).size) : ∃ A f B, fs = A ++ f :: B ∧ z = f.start ∧
      x = (base :: starts A).getLast (List.cons_ne_nil base _) := by
  obtain ⟨S, T, hST⟩ := List.append_of_mem hx
  have hlinked := hl.linked
  rw [← List.cons_append, hST, List.append_assoc, List.cons_append] at hlinked
  have hnext := hlinked.next_eq (by simp)
  cases T with
  | nil =>
    -- it would be `base`, which is empty
    have hbase : (mem x).ptr = base := hnext
    rw [← hz, hbase, hl.empty] at hpos
    exact absurd hpos (Nat.lt_irrefl 0)
  | cons y T =>
    have hzy : z = y := hz.symm.trans hnext
    have hcut : base :: starts fs = S ++ [x] ++ y :: T := by
      rw [hST, List.append_assoc, List.singleton_append]
    cases S with
    | nil =>
      obtain ⟨hbx, hfs⟩ := List.cons.inj (show base :: starts fs = x :: y :: T from hcut)
      obtain ⟨f, B, rfl, hf, -⟩ := List.map_eq_cons_iff.mp hfs
      exact ⟨[], f, B, rfl, hzy.trans hf.symm, hbx.symm⟩
    | cons s S =>
      obtain ⟨hbs, hfs⟩ := List.cons.inj (show base :: starts fs = s :: (S ++ [x] ++
        y :: T) from hcut)
      obtain ⟨A, B', rfl, hA, hB⟩ := List.map_eq_append_iff.mp hfs
      obtain ⟨f, B, rfl, hf, -⟩ := List.map_eq_cons_iff.mp hB
      refine ⟨A, f, B, rfl, hzy.trans hf.symm, ?_⟩
      simp [starts, hA]

/-- **A block of the list becomes shorter.** -/
theorem Listed.shorten {q n : Nat} {h : Header} (hl : Listed mem base (A ++ f :: B))
    (hnodup : (base :: starts (A ++ f :: B)).Nodup) (hq : q ∉ base :: starts (A ++ f :: B)) :
    Listed (Function.update (Function.update mem f.start ⟨(mem f.start).ptr, n⟩) q h) base
      (A ++ ⟨f.start, headerSize * n⟩ :: B) := by
  have hstarts : starts (A ++ ⟨f.start, headerSize * n⟩ :: B) = starts (A ++ f :: B) := by
    rw [starts, starts, List.map_append, List.map_append, List.map_cons, List.map_cons]
  have hne : ∀ x ∈ base :: starts (A ++ f :: B), x ≠ q := fun x hx heq => hq (heq ▸ hx)
  have hptr : ∀ x ∈ base :: starts (A ++ f :: B),
      (Function.update (Function.update mem f.start ⟨(mem f.start).ptr, n⟩) q h x).ptr =
      (mem x).ptr := by
    intro x hx
    rw [Function.update_of_ne (hne x hx)]
    by_cases hxf : x = f.start
    · rw [hxf, Function.update_self]
    · rw [Function.update_of_ne hxf]
  have hsame : ∀ x ∈ base :: starts (A ++ f :: B), x ≠ f.start →
      Function.update (Function.update mem f.start ⟨(mem f.start).ptr, n⟩) q h x = mem x := by
    intro x hx hxf
    rw [Function.update_of_ne (hne x hx), Function.update_of_ne hxf]
  have hfmem : f.start ∈ starts (A ++ f :: B) :=
    List.mem_map_of_mem (List.mem_append_right A List.mem_cons_self)
  have hfbase : base ≠ f.start := fun heq => (List.nodup_cons.mp hnodup).1 (heq ▸ hfmem)
  have hsplit := (List.nodup_cons.mp hnodup).2
  rw [starts, List.map_append, List.map_cons] at hsplit
  obtain ⟨-, hB, hAB⟩ := List.nodup_append.mp hsplit
  refine ⟨?_, ?_, fun g hg => ?_⟩
  · rw [hstarts]
    refine hl.linked.congr fun x hx => ?_
    rw [← List.cons_append, List.dropLast_concat] at hx
    rw [hptr x hx]
  · rw [hsame base List.mem_cons_self hfbase]
    exact hl.empty
  · rcases List.mem_append.mp hg with hg | hg
    · have hga := List.mem_map_of_mem (f := Span.start) hg
      have hmem : g ∈ A ++ f :: B := List.mem_append_left _ hg
      rw [hsame g.start (List.mem_cons_of_mem _ (List.mem_map_of_mem hmem))
        (hAB g.start hga f.start List.mem_cons_self)]
      exact hl.sizes g hmem
    · rcases List.mem_cons.mp hg with rfl | hg
      · rw [Function.update_of_ne (hne f.start (List.mem_cons_of_mem base hfmem)),
          Function.update_self]
      · have hga := List.mem_map_of_mem (f := Span.start) hg
        have hmem : g ∈ A ++ f :: B := List.mem_append_right _ (List.mem_cons_of_mem f hg)
        rw [hsame g.start (List.mem_cons_of_mem _ (List.mem_map_of_mem hmem))
          fun heq => (List.nodup_cons.mp hB).1 (heq ▸ hga)]
        exact hl.sizes g hmem

/-- The entry is no null pointer. -/
theorem Heap.freep_pos {s : State} (h : Heap base lo s fs used) (hpos : 0 < base)
    (hbase : base + headerSize ≤ lo) : 0 < s.freep := by
  rcases List.mem_cons.mp h.entry with heq | hmem
  · rwa [heq]
  · obtain ⟨f, hf, heq⟩ := List.mem_map.mp hmem
    have hin := h.arena.inside f (Or.inl hf)
    rw [← heq]
    omega

/-- **A block of the list that is large enough is taken**, or the end of it. -/
theorem allocate_spec {s : State} {x z nunits : Nat} (h : Heap base lo s fs used)
    (hbase : base + headerSize ≤ lo)
    (hx : x ∈ base :: starts fs) (hz : (s.mem x).ptr = z) (hpos : 0 < nunits)
    (hfit : nunits ≤ (s.mem z).size) :
    ∃ fs' b s', allocate s x z nunits = (b.start + headerSize, s') ∧
    Heap base lo s' fs' (b :: used) ∧
      b.len = headerSize * nunits ∧ (s'.mem b.start).size = nunits ∧ s'.sz = s.sz ∧
      s'.used = s.used ∧
      Untouched used s s' := by
  obtain ⟨A, f, B, rfl, hzf, hlast⟩ : ∃ A f B, fs = A ++ f :: B ∧ z = f.start ∧
      x = (base :: starts A).getLast (List.cons_ne_nil base _) :=
      h.list.exists_pred hx hz (by omega)
  subst hzf
  have hfmem : f ∈ A ++ f :: B := List.mem_append_right A List.mem_cons_self
  have hfsize := h.list.sizes f hfmem
  have hnodup := starts_nodup h.arena hbase
  have hxA : x ∈ base :: starts A := by
    rw [hlast]
    exact List.getLast_mem _
  unfold allocate
  by_cases hexact : (s.mem f.start).size = nunits
  · rw [if_pos hexact]
    have hxf : f.start ≠ x := by
      intro heq
      rw [starts, List.map_append, List.map_cons, ← List.cons_append] at hnodup
      exact (List.nodup_append.mp hnodup).2.2 x hxA f.start List.mem_cons_self heq.symm
    refine ⟨A ++ B, f, _, rfl, ⟨h.list.unlink hnodup hlast, h.arena.take,
      ?_⟩, by rw [hfsize, hexact], ?_, rfl, rfl, fun u hu a hlo hhi => ?_⟩
    · rw [starts, List.map_append, ← List.cons_append]
      exact List.mem_append_left _ hxA
    · show (Function.update s.mem x _ f.start).size = _
      rw [Function.update_of_ne hxf, hexact]
    · show Function.update s.mem x _ a = _
      rw [Function.update_of_ne (not_mem_list h.arena hbase hu hlo hhi hx)]
  · rw [if_neg hexact]
    have hf := h.arena.inside f (Or.inl hfmem)
    have hlt : headerSize * nunits < f.len := by
      rw [hfsize]
      simp only [headerSize]
      omega
    have hrest : f.len - headerSize * nunits = headerSize * ((s.mem f.start).size - nunits) := by
      rw [hfsize, Nat.mul_sub]
    have hsplit := h.arena.split (Nat.mul_pos (by decide : 0 < headerSize) hpos) hlt
    rw [hrest] at hsplit
    -- the end of the block is no header of the list
    have hq : f.start + headerSize * ((s.mem f.start).size - nunits) ∉
      base :: starts (A ++ f :: B) := by
      intro hmem
      have hin := h.arena.take.inside f (Or.inr List.mem_cons_self)
      rw [starts, List.map_append, List.map_cons, ← List.cons_append] at hmem
      have hne : f.start + headerSize * ((s.mem f.start).size - nunits) ∉
        base :: starts (A ++ B) := by
        refine fun hmem => not_mem_list h.arena.take hbase List.mem_cons_self ?_ ?_ hmem rfl
        · exact Nat.le_add_right _ _
        · unfold Span.stop
          simp only [headerSize] at hrest hlt hpos ⊢
          omega
      rcases List.mem_append.mp hmem with hmem | hmem
      · rw [starts, List.map_append, ← List.cons_append] at hne
        exact hne (List.mem_append_left _ hmem)
      · rcases List.mem_cons.mp hmem with heq | hmem
        · simp only [headerSize] at hrest hlt heq
          omega
        · rw [starts, List.map_append, ← List.cons_append] at hne
          exact hne (List.mem_append_right _ hmem)
    refine ⟨_, _, { (s.setSize f.start ((s.mem f.start).size - nunits)).setSize
      (f.start + headerSize * ((s.mem f.start).size - nunits)) nunits with freep :=
      x }, ?_, ⟨?_, hsplit, ?_⟩, rfl, ?_, rfl, rfl, fun u hu a hlo hhi => ?_⟩
    · dsimp only
      rw [State.setSize_self]
    · exact h.list.shorten hnodup hq
    · rw [starts, List.map_append, List.map_cons, ← List.cons_append]
      exact List.mem_append_left _ hxA
    · exact State.setSize_self _ _ _
    · show Function.update (Function.update s.mem f.start _) _ _ a = _
      have hd := (List.pairwise_cons.mp hsplit.disjoint).1 u hu
      rw [Function.update_of_ne, Function.update_of_ne]
      · exact not_mem_list h.arena hbase hu hlo hhi (List.mem_cons_of_mem base
          (List.mem_map_of_mem hfmem))
      · unfold Span.Disjoint Span.stop at *
        simp only [headerSize] at *
        omega

/-- **The loop of `malloc` from a block of the list on**: it takes a block that is large enough, or
comes back to where it started and asks for more memory. -/
theorem mallocLoop_scan (L : Layout) (mapped : Bool) (nunits : Nat) {s : State} :
    ∀ {Z : List Nat} {x n : Nat}, Linked (fun a => (s.mem a).ptr) (x :: (Z ++ [s.freep])) →
    s.freep ∉ Z → Z.length < n →
      (∃ y ∈ x :: Z, nunits ≤ (s.mem (s.mem y).ptr).size ∧
        mallocLoop L mapped nunits n s x (s.mem x).ptr = .ok (allocate s y (s.mem y).ptr nunits)) ∨
      (∀ z ∈ Z ++ [s.freep], (s.mem z).size < nunits) ∧
        mallocLoop L mapped nunits n s x (s.mem x).ptr =
          match morecore L mapped s nunits with
          | .error e => .error e
          | .ok (q, s') =>
            if q = 0 then .ok (0, s') else mallocLoop L mapped nunits (n - Z.length - 1) s' q
              (s'.mem q).ptr := by
  intro Z
  induction Z with
  | nil =>
    intro x n hl _ hn
    obtain ⟨m, rfl⟩ : ∃ m, n = m + 1 := ⟨n - 1, by simp only [List.length_nil] at hn; omega⟩
    have hnext : (s.mem x).ptr = s.freep := (linked_cons_cons.mp hl).1
    rw [mallocLoop, hnext]
    by_cases hfit : nunits ≤ (s.mem s.freep).size
    · exact Or.inl ⟨x, List.mem_cons_self, by rwa [hnext], by rw [if_pos hfit, hnext]⟩
    · refine Or.inr ⟨fun z hz => ?_, ?_⟩
      · rw [List.mem_singleton.mp hz]
        omega
      · rw [if_neg hfit, if_pos rfl]
        rfl
  | cons z Z ih =>
    intro x n hl hnot hn
    obtain ⟨m, rfl⟩ : ∃ m, n = m + 1 := ⟨n - 1, by simp only [List.length_cons] at hn; omega⟩
    have hnext : (s.mem x).ptr = z := (linked_cons_cons.mp hl).1
    have hz : z ≠ s.freep := fun heq => hnot (heq ▸ List.mem_cons_self)
    rw [mallocLoop, hnext]
    by_cases hfit : nunits ≤ (s.mem z).size
    · exact Or.inl ⟨x, List.mem_cons_self, by rwa [hnext], by rw [if_pos hfit, hnext]⟩
    · rw [if_neg hfit, if_neg hz]
      rcases ih (n := m) (linked_cons_cons.mp hl).2 (fun hmem => hnot (List.mem_cons_of_mem z hmem))
        (by simp only [List.length_cons] at hn; omega) with ⟨y, hy, hyfit, hrun⟩ | ⟨hnone, hrun⟩
      · exact Or.inl ⟨y, List.mem_cons_of_mem x hy, hyfit, hrun⟩
      · refine Or.inr ⟨fun y hy => ?_, ?_⟩
        · rcases List.mem_cons.mp hy with rfl | hy
          · omega
          · exact hnone y hy
        · have hfuel : m + 1 - (z :: Z).length - 1 = m - Z.length - 1 := by
            simp only [List.length_cons]
            omega
          rw [hfuel]
          exact hrun

/-! ### More memory -/

/-- A byte count that fits an `int` is not narrowed. -/
theorem sbrkCount_eq {nu : Nat} (h : nu * headerSize < 2 ^ 31) :
    sbrkCount nu = ((nu * headerSize : Nat) : Int) := by
  unfold sbrkCount
  have hnat : (BitVec.ofNat 32 (nu * headerSize)).toNat = nu * headerSize := by
    rw [BitVec.toNat_ofNat, Nat.mod_eq_of_lt]
    exact Nat.lt_of_lt_of_le h (by decide)
  rw [BitVec.toInt_eq_toNat_of_lt, hnat]
  rw [hnat]
  omega

/-- The size grows up to the limit. -/
theorem growproc_grow {heapStart n sz : Nat} (hsz : sz ≤ trapframeVa) (hpos : 0 < n)
    (hn : n < 2 ^ 31) :
    growproc heapStart (n : Int) sz = if maxHeapEnd < sz + n then none else some (sz + n) := by
  have hu : u64 (sz + n) = sz + n := by
    unfold u64
    simp only [trapframeVa, trampolineVa, maxVa, pgSize] at hsz
    omega
  unfold growproc
  rw [if_pos (by omega), Int.toNat_natCast, hu]
  rfl

/-- The units that `morecore` asks for. -/
theorem morecoreUnits_eq (nunits : Nat) :
    (if nunits < 4096 then 4096 else nunits) = max 4096 nunits := by
  split <;> omega

/-- **What `morecore` does**: it refuses, or there is a free block that is large enough. -/
theorem morecore_spec {L : Layout} (mapped : Bool) {nunits : Nat} {s : State}
    (h : Heap L.base lo s fs used)
    (hlo : L.heapStart ≤ lo) (hle : lo ≤ s.sz) (hsz : s.sz ≤ trapframeVa)
    (hcount : nunits * headerSize < 2 ^ 31 ∨ growproc L.heapStart (sbrkCount nunits) s.sz = none) :
    (maxHeapEnd < s.sz + headerSize * max 4096 nunits ∧ morecore L mapped s nunits = .ok (0, s)) ∨
      s.sz + headerSize * max 4096 nunits ≤ maxHeapEnd ∧
        ∃ fs' s', morecore L mapped s nunits = .ok (s'.freep, s') ∧ Heap L.base lo s' fs' used ∧
          s'.sz = s.sz + headerSize * max 4096 nunits ∧ s'.used = s.used ∧ Untouched used s s' ∧
          fs'.length ≤ fs.length + 1 ∧ ∃ f ∈ fs', headerSize * nunits ≤ f.len := by
  have hpos : 0 < headerSize * max 4096 nunits := Nat.mul_pos (by decide) (by omega)
  by_cases hbig : nunits * headerSize < 2 ^ 31
  · have hn : max 4096 nunits * headerSize < 2 ^ 31 := by
      simp only [headerSize] at hbig ⊢
      omega
    have hgrow : growproc L.heapStart (sbrkCount (max 4096 nunits)) s.sz =
        if maxHeapEnd < s.sz + headerSize * max 4096 nunits then none
        else some (s.sz + headerSize * max 4096 nunits) := by
      rw [sbrkCount_eq hn, Nat.mul_comm, growproc_grow hsz hpos (by rwa [Nat.mul_comm])]
    by_cases hlimit : maxHeapEnd < s.sz + headerSize * max 4096 nunits
    · refine Or.inl ⟨hlimit, ?_⟩
      unfold morecore
      rw [morecoreUnits_eq]
      dsimp only
      rw [sbrk, hgrow, if_pos hlimit]
      rfl
    · refine Or.inr ⟨Nat.le_of_not_lt hlimit, ?_⟩
      rw [if_neg hlimit] at hgrow
      -- the new memory is a block, which is freed
      let b : Span := ⟨s.sz, headerSize * max 4096 nunits⟩
      have hgrown : Arena lo b.stop fs ([] ++ b :: used) :=
        h.arena.append hle (Nat.le_refl s.sz) hpos
      have hbase := L.base_below.trans hlo
      have hnew : ∀ x ∈ L.base :: starts fs, x ≠ s.sz := by
        intro x hx heq
        rcases List.mem_cons.mp hx with rfl | hx
        · simp only [headerSize] at hbase
          omega
        · obtain ⟨f, hf, rfl⟩ := List.mem_map.mp hx
          have hin := h.arena.inside f (Or.inl hf)
          unfold Span.stop at hin
          omega
      have hlist : Listed (({ s with sz := s.sz + headerSize * max 4096 nunits }).setSize s.sz
        (max 4096 nunits)).mem
          L.base fs := h.list.congr fun x hx => Function.update_of_ne (hnew x hx) _ _
      obtain ⟨fs', s', hfree, hlist', harena', hentry', hsz', hused', hkept, hlen, f, hf, hfit⟩ :=
        free_spec hlist hgrown hbase (by simp only [b, Span.stop, maxHeapEnd] at hlimit ⊢; omega)
          (Nat.le_refl _) (by rw [State.setSize_self]) h.entry
      refine ⟨fs', s', ?_, ⟨hlist', by rw [hsz']; exact harena', hentry'⟩, hsz', hused',
        fun u hu a hlo hhi => ?_, hlen, f, hf, ?_⟩
      · unfold morecore
        rw [morecoreUnits_eq]
        dsimp only
        rw [sbrk, hgrow]
        dsimp only [Option.map_some]
        rw [if_neg (by simp only [headerSize] at hpos ⊢; omega), hfree]
      · rw [hkept u hu a hlo hhi]
        have hin := h.arena.inside u (Or.inr hu)
        exact Function.update_of_ne (by omega) _ _
      · refine Nat.le_trans ?_ hfit
        exact Nat.mul_le_mul_left headerSize (Nat.le_max_right _ _)
  · refine Or.inl ⟨?_, ?_⟩
    · simp only [maxHeapEnd, headerSize] at hbig ⊢
      omega
    · have hmax : max 4096 nunits = nunits := by
        simp only [headerSize] at hbig
        omega
      unfold morecore
      rw [morecoreUnits_eq, hmax]
      dsimp only
      rw [sbrk, hcount.resolve_left hbig]
      rfl

/-! ### The search -/

/-- **The memory can be obtained**: a free block is large enough, or the heap can grow. -/
def HasRoom (s : State) (fs : List Span) (nunits : Nat) : Prop :=
  (∃ f ∈ fs, nunits ≤ (s.mem f.start).size) ∨ s.sz + headerSize * max 4096 nunits ≤ maxHeapEnd

/-- **A block is handed out**, with what is needed for the request. -/
structure Handed (base lo nunits : Nat) (s : State) (used : List Span) (r : Nat) (s' : State) :
    Prop where
  heap : ∃ fs b, r = b.start + headerSize ∧ b.len = headerSize * nunits ∧
    (s'.mem b.start).size = nunits ∧ Heap base lo s' fs (b :: used)
  same : s'.used = s.used
  untouched : Untouched used s s'
  size : s'.sz = s.sz ∨ s'.sz = s.sz + headerSize * max 4096 nunits ∧ s'.sz ≤ maxHeapEnd

/-- A block that is found is handed out. -/
theorem Heap.handed {L : Layout} {mapped : Bool} {nunits n x y : Nat} {s : State}
    (h : Heap base lo s fs used)
    (hbase : base + headerSize ≤ lo) (hpos : 0 < nunits) (hy : y ∈ base :: starts fs)
    (hfit : nunits ≤ (s.mem (s.mem y).ptr).size)
    (hrun : mallocLoop L mapped nunits n s x (s.mem x).ptr =
      .ok (allocate s y (s.mem y).ptr nunits)) :
    ∃ r s', mallocLoop L mapped nunits n s x (s.mem x).ptr = .ok (r, s') ∧ s'.sz = s.sz ∧
      Handed base lo nunits s used r s' := by
  obtain ⟨fs', b, s', hall, hheap, hlen, hsize, hsz, hused, hkept⟩ :=
    allocate_spec h hbase hy rfl hpos hfit
  exact ⟨b.start + headerSize, s', by rw [hrun, hall], hsz, ⟨fs', b, rfl, hlen, hsize, hheap⟩,
    hused, hkept, Or.inl hsz⟩

/-- **What the loop of `malloc` does**: it hands a block out when the memory can be obtained, and
changes nothing when it cannot. -/
theorem mallocLoop_spec {L : Layout} (mapped : Bool) {nunits n : Nat} {s : State}
    (h : Heap L.base lo s fs used)
    (hlo : L.heapStart ≤ lo) (hle : lo ≤ s.sz) (hsz : s.sz ≤ trapframeVa) (hpos : 0 < nunits)
    (hcount : nunits * headerSize < 2 ^ 31 ∨ growproc L.heapStart (sbrkCount nunits) s.sz = none)
    (hn : 2 * fs.length + 2 < n) :
    (HasRoom s fs nunits ∧
      ∃ r s', mallocLoop L mapped nunits n s s.freep (s.mem s.freep).ptr = .ok (r, s') ∧
        Handed L.base lo nunits s used r s') ∨
    ¬ HasRoom s fs nunits ∧ mallocLoop L mapped nunits n s s.freep (s.mem s.freep).ptr =
    .ok (0, s) := by
  have hbase := L.base_below.trans hlo
  obtain ⟨Z, hZ, hlen, hnot, hlinked⟩ := h.list.linked.rotate h.entry
  rw [List.length_map] at hlen
  have hfuel : Z.length < n := by omega
  rcases mallocLoop_scan L mapped nunits hlinked (hnot (starts_nodup h.arena hbase)) hfuel with ⟨y,
    hy, hfit, hrun⟩ | ⟨hnone, hrun⟩
  · have hymem : y ∈ L.base :: starts fs := (hZ y).mpr (List.mem_cons.mp hy)
    obtain ⟨A, f, B, rfl, hf, -⟩ := h.list.exists_pred hymem rfl (by omega)
    refine Or.inl ⟨Or.inl ⟨f, List.mem_append_right A List.mem_cons_self, by rwa [← hf]⟩, ?_⟩
    obtain ⟨r, s', hres, -, hhanded⟩ := h.handed hbase hpos hymem hfit hrun
    exact ⟨r, s', hres, hhanded⟩
  · have hnofit : ∀ f ∈ fs, (s.mem f.start).size < nunits := by
      intro f hf
      have hmem := (hZ f.start).mp (List.mem_cons_of_mem _ (List.mem_map_of_mem hf))
      refine hnone f.start (List.mem_append.mpr ?_)
      rcases hmem with heq | hmem
      · exact Or.inr (List.mem_singleton.mpr heq)
      · exact Or.inl hmem
    rcases morecore_spec mapped h hlo hle hsz hcount with ⟨hlimit, hmore⟩ | ⟨hlimit, hmore⟩
    · refine Or.inr ⟨?_, ?_⟩
      · rintro (⟨f, hf, hfit⟩ | hroom)
        · exact Nat.not_lt.mpr hfit (hnofit f hf)
        · exact Nat.not_lt.mpr hroom hlimit
      · rw [hrun, hmore]
        rfl
    · refine Or.inl ⟨Or.inr hlimit, ?_⟩
      obtain ⟨fs', s', hmore, hheap, hsz', hused, hkept, hlen', f, hf, hfit⟩ := hmore
      have hentry := hheap.freep_pos L.base_pos hbase
      have hrun' : mallocLoop L mapped nunits n s s.freep (s.mem s.freep).ptr =
          mallocLoop L mapped nunits (n - Z.length - 1) s' s'.freep (s'.mem s'.freep).ptr := by
        rw [hrun, hmore]
        dsimp only
        rw [if_neg (Nat.ne_of_gt hentry)]
      -- the second time round the new block is found
      obtain ⟨Z', hZ', hlenZ, hnot', hlinked'⟩ := hheap.list.linked.rotate hheap.entry
      rw [List.length_map] at hlenZ
      have hfuel' : Z'.length < n - Z.length - 1 := by omega
      rcases mallocLoop_scan L mapped nunits hlinked' (hnot' (starts_nodup hheap.arena hbase))
        hfuel' with ⟨y, hy, hyfit, hagain⟩ | ⟨hnone', -⟩
      · obtain ⟨r, s'', hres, hsame, hhanded⟩ :=
          hheap.handed hbase hpos ((hZ' y).mpr (List.mem_cons.mp hy)) hyfit hagain
        refine ⟨r, s'', by rw [hrun', hres], hhanded.heap, hhanded.same.trans hused,
          hkept.trans hhanded.untouched,
          Or.inr ?_⟩
        rw [hsame, hsz']
        exact ⟨rfl, hlimit⟩
      · exfalso
        have hsize := hheap.list.sizes f hf
        have hmem := (hZ' f.start).mp (List.mem_cons_of_mem _ (List.mem_map_of_mem hf))
        have hlt := hnone' f.start (List.mem_append.mpr
          (hmem.symm.imp_right List.mem_singleton.mpr))
        simp only [headerSize] at hsize hfit
        omega

/-! ## The calls -/

/-- **What holds of every state**: the heap from `lo` on, with room for what was asked for
in each block in use. -/
structure Inv (L : Layout) (lo : Nat) (s : State) : Prop where
  start : L.heapStart ≤ lo
  lower : lo ≤ s.sz
  upper : s.sz ≤ lo + maxHeapEnd
  small : s.sz ≤ trapframeVa
  fresh : s.freep = 0 → s.used = []
  heap : s.freep ≠ 0 → ∃ fs, Heap L.base lo s fs (s.used.map s.span)
  fits : ∀ b ∈ s.used, headerSize + b.nbytes ≤ (s.span b).len

variable {L : Layout} {s s' : State} {d : Block}

/-- A block in use keeps its size. -/
theorem Untouched.span (h : Untouched used s s') (hd : s.span d ∈ used)
    (hpos : 0 < (s.span d).len) : s'.span d = s.span d := by
  have hsame : s'.mem d.header = s.mem d.header := by
    refine h (s.span d) hd d.header (Nat.le_refl _) ?_
    exact Nat.lt_add_of_pos_right hpos
  rw [State.span, State.span, hsame]

theorem Untouched.map_span {l : List Block} (h : Untouched used s s')
    (hl : ∀ d ∈ l, s.span d ∈ used ∧ 0 < (s.span d).len) : l.map s'.span = l.map s.span :=
  List.map_congr_left fun d hd => h.span (hl d hd).1 (hl d hd).2

/-- The list is there when `malloc` has started. -/
theorem Inv.started {lo : Nat} (h : Inv L lo s) :
    ∃ fs, Heap L.base lo (Umalloc.start L s) fs (s.used.map s.span) ∧
    (Umalloc.start L s).used = s.used ∧ (Umalloc.start L s).sz = s.sz ∧
    Untouched (s.used.map s.span) s (Umalloc.start L s) := by
  unfold Umalloc.start
  by_cases hfreep : s.freep = 0
  · rw [if_pos hfreep, h.fresh hfreep]
    refine ⟨[], ⟨⟨?_, ?_, fun f hf => absurd hf List.not_mem_nil⟩, .nil _ _, List.mem_cons_self⟩,
      h.fresh hfreep, rfl, fun u hu => absurd hu List.not_mem_nil⟩
    · refine linked_cons_cons.mpr ⟨?_, linked_singleton _ _⟩
      show (((s.setPtr L.base L.base).setSize L.base 0).mem L.base).ptr = L.base
      rw [State.setSize_ptr, State.setPtr]
      dsimp only
      rw [Function.update_self]
    · exact State.setSize_self _ _ _
  · rw [if_neg hfreep]
    obtain ⟨fs, hheap⟩ := h.heap hfreep
    exact ⟨fs, hheap, rfl, rfl, fun _ _ _ _ _ => rfl⟩

/-- The blocks in use are no empty spans. -/
theorem Inv.span_pos {lo : Nat} (h : Inv L lo s) (hd : d ∈ s.used) : 0 < (s.span d).len := by
  have hfits := h.fits d hd
  simp only [headerSize] at hfits
  omega

/-- The units are enough for the request. -/
theorem units_fit (nbytes : BitVec 32) : headerSize + nbytes.toNat ≤ headerSize * units nbytes := by
  unfold units
  simp only [headerSize]
  omega

/-- **What `malloc` does**: it returns, and hands a block out if and only if the memory can be
obtained. -/
theorem malloc_spec {lo : Nat} {nbytes : BitVec 32} {mapped : Bool} (h : Inv L lo s)
    (hheap : Heap L.base lo (Umalloc.start L s) fs (s.used.map s.span))
    (hob : Obtainable L s (.malloc nbytes mapped)) :
    ∃ r s', malloc L mapped nbytes s = .ok (r, s') ∧ Untouched (s.used.map s.span) s s' ∧
    (r = 0 ↔ ¬ HasRoom (Umalloc.start L s) fs (units nbytes)) ∧
      (r = 0 → s' = Umalloc.start L s) ∧
      (r ≠ 0 → Handed L.base lo (units nbytes) (Umalloc.start L s) (s.used.map s.span) r s') := by
  obtain ⟨-, -, -, hsz, hkept⟩ := h.started
  have hlen := hheap.arena.length_le
  have hfuel : 2 * fs.length + 2 < (Umalloc.start L s).fuel := by
    unfold State.fuel
    omega
  have hpos : 0 < units nbytes := Nat.succ_pos _
  rcases mallocLoop_spec mapped hheap h.start (by rw [hsz]; exact h.lower)
    (by rw [hsz]; exact h.small) hpos
    (by rw [hsz]; exact hob) hfuel with ⟨hroom, r, s', hrun, hhanded⟩ | ⟨hroom, hrun⟩
  · have hr : r ≠ 0 := by
      obtain ⟨-, b, rfl, -⟩ := hhanded.heap
      exact Nat.succ_ne_zero _
    exact ⟨r, s', hrun, hkept.trans hhanded.untouched, ⟨fun heq => absurd heq hr,
      fun hno => absurd hroom hno⟩, fun heq => absurd heq hr, fun _ => hhanded⟩
  · exact ⟨0, _, hrun, hkept, ⟨fun _ => hroom, fun _ => rfl⟩, fun _ => rfl,
      fun hne => absurd rfl hne⟩

/-- A call of `malloc` that fails keeps the invariant. -/
theorem Inv.of_started {lo : Nat} (h : Inv L lo s) : Inv L lo (Umalloc.start L s) := by
  obtain ⟨fs, hheap, hused, hsz, hkept⟩ := h.started
  have hspan : ∀ d ∈ s.used, (Umalloc.start L s).span d = s.span d := fun d hd =>
    hkept.span (List.mem_map_of_mem hd) (h.span_pos hd)
  refine ⟨h.start, by rw [hsz]; exact h.lower, by rw [hsz]; exact h.upper,
    by rw [hsz]; exact h.small, fun hz => ?_,
    fun _ => ⟨fs, ?_⟩, fun d hd => ?_⟩
  · have hpos := hheap.freep_pos L.base_pos (L.base_below.trans h.start)
    exact absurd hz (Nat.ne_of_gt hpos)
  · rw [hused, List.map_congr_left hspan]
    exact hheap
  · rw [hused] at hd
    rw [hspan d hd]
    exact h.fits d hd

/-- A block that is handed out is in use then. -/
theorem Inv.handed {lo r : Nat} {nbytes : BitVec 32} (h : Inv L lo s)
    (hh : Handed L.base lo (units nbytes) (Umalloc.start L s) (s.used.map s.span) r s')
    (hkept : Untouched (s.used.map s.span) s s') :
    Inv L lo { s' with used := ⟨r - headerSize, nbytes.toNat⟩ :: s'.used } := by
  obtain ⟨fs, -, hused, hsz, -⟩ := h.started
  obtain ⟨fs', b, rfl, hlen, hsize, hheap⟩ := hh.heap
  have hspans := hkept.map_span fun d hd => ⟨List.mem_map_of_mem hd, h.span_pos hd⟩
  have hnew : s'.span ⟨b.start, nbytes.toNat⟩ = b := by
    rw [State.span, hsize, ← hlen]
  have hsame : s'.used = s.used := hh.same.trans hused
  have hsz' := hh.size
  rw [hsz] at hsz'
  have hlower := h.lower
  have hupper := h.upper
  have hsmall := h.small
  rw [Nat.add_sub_cancel]
  refine ⟨h.start, ?_, ?_, ?_, fun hz => ?_, fun _ => ⟨fs', hheap.list, ?_, hheap.entry⟩,
    fun d hd => ?_⟩
  · dsimp only
    omega
  · dsimp only
    omega
  · simp only [maxHeapEnd, trapframeVa, trampolineVa, maxVa, pgSize] at hsz' hsmall ⊢
    omega
  · exact absurd hz (Nat.ne_of_gt (hheap.freep_pos L.base_pos (L.base_below.trans h.start)))
  · show Arena lo s'.sz fs' (s'.span ⟨b.start, nbytes.toNat⟩ :: s'.used.map s'.span)
    rw [hnew, hsame, hspans]
    exact hheap.arena
  · rcases List.mem_cons.mp hd with rfl | hd
    · show headerSize + nbytes.toNat ≤ (s'.span ⟨b.start, nbytes.toNat⟩).len
      rw [hnew, hlen]
      exact units_fit nbytes
    · have hd' : d ∈ s.used := hsame ▸ hd
      show headerSize + d.nbytes ≤ (s'.span d).len
      rw [hkept.span (List.mem_map_of_mem hd') (h.span_pos hd')]
      exact h.fits d hd'

/-- A list with blocks in use has an entry. -/
theorem Inv.freep_ne {lo : Nat} (h : Inv L lo s) (hd : d ∈ s.used) : s.freep ≠ 0 := by
  intro hz
  rw [h.fresh hz] at hd
  exact List.not_mem_nil hd

/-- **What `free` does to the blocks in use.** -/
theorem Inv.free {lo : Nat} (h : Inv L lo s) (hd : d ∈ s.used) :
    ∃ s', Umalloc.free s (d.header + headerSize) = .ok s' ∧ s'.used = s.used ∧
      Untouched ((s.used.erase d).map s.span) s s' ∧
      Inv L lo { s' with used := s'.used.erase d } := by
  obtain ⟨fs, hheap⟩ := h.heap (h.freep_ne hd)
  have hperm : (s.used.map s.span).Perm ([] ++ s.span d :: (s.used.erase d).map s.span) :=
    (List.perm_cons_erase hd).map s.span
  have harena := hheap.arena.perm hperm
  obtain ⟨fs', s', hrun, hlist, harena', hentry, hsz, hused, hkept, -, -⟩ :=
    free_spec hheap.list harena (L.base_below.trans h.start) h.upper (Nat.le_refl _) rfl hheap.entry
  have hsub : ∀ e ∈ s.used.erase d, e ∈ s.used := fun e he => List.mem_of_mem_erase he
  have hspans := hkept.map_span fun e he => ⟨List.mem_map_of_mem he, h.span_pos (hsub e he)⟩
  refine ⟨s', hrun, hused, hkept, h.start, ?_, ?_, ?_, fun hz => ?_,
    fun _ => ⟨fs', hlist, ?_, hentry⟩, fun e he => ?_⟩
  · show lo ≤ s'.sz
    rw [hsz]
    exact h.lower
  · show s'.sz ≤ lo + maxHeapEnd
    rw [hsz]
    exact h.upper
  · show s'.sz ≤ trapframeVa
    rw [hsz]
    exact h.small
  · have hheap' : Heap L.base lo s' fs' ([] ++ (s.used.erase d).map s.span) :=
      ⟨hlist, by rwa [hsz], hentry⟩
    exact absurd hz (Nat.ne_of_gt (hheap'.freep_pos L.base_pos (L.base_below.trans h.start)))
  · show Arena lo s'.sz fs' ((s'.used.erase d).map s'.span)
    rw [hsz, hused, hspans]
    exact harena'
  · have he' : e ∈ s.used.erase d := hused ▸ he
    show headerSize + e.nbytes ≤ (s'.span e).len
    rw [hkept.span (List.mem_map_of_mem he') (h.span_pos (hsub e he'))]
    exact h.fits e (hsub e he')

/-- A store in a block in use changes no header. -/
theorem Inv.store {lo a : Nat} {w : Header} (h : Inv L lo s) (hd : d ∈ s.used)
    (hlo : d.header + headerSize ≤ a)
    (hhi : a + headerSize ≤ (s.span d).stop) :
    Inv L lo { s with mem := Function.update s.mem a w } := by
  obtain ⟨fs, hheap⟩ := h.heap (h.freep_ne hd)
  have hmem : s.span d ∈ s.used.map s.span := List.mem_map_of_mem hd
  have hle : (s.span d).start ≤ a := by
    simp only [State.span, headerSize] at hlo ⊢
    omega
  have hlt : a < (s.span d).stop := by
    simp only [headerSize] at hhi
    omega
  -- the headers of the blocks in use stay
  have hspan : ∀ e ∈ s.used, ({ s with mem := Function.update s.mem a w } : State).span e =
    s.span e := by
    intro e he
    have hne : e.header ≠ a := by
      have hperm : (s.used.map s.span).Perm (s.span d :: (s.used.erase d).map s.span) :=
        (List.perm_cons_erase hd).map s.span
      rcases List.mem_cons.mp ((List.perm_cons_erase hd).mem_iff.mp he) with rfl | he'
      · simp only [headerSize] at hlo
        omega
      · have hd' := (List.pairwise_cons.mp (hheap.arena.perm hperm).disjoint).1 _
          (List.mem_map_of_mem he')
        have hpos := h.span_pos he
        simp only [Span.Disjoint, Span.stop, State.span] at hd' hpos hle hlt
        omega
    rw [State.span, State.span]
    dsimp only
    rw [Function.update_of_ne hne]
  refine ⟨h.start, h.lower, h.upper, h.small, h.fresh,
    fun _ => ⟨fs, hheap.list.congr fun x hx => ?_, ?_, hheap.entry⟩, fun e he => ?_⟩
  · exact Function.update_of_ne
      (not_mem_list hheap.arena (L.base_below.trans h.start) hmem hle hlt hx).symm _ _
  · show Arena lo s.sz fs (s.used.map _)
    rw [List.map_congr_left hspan]
    exact hheap.arena
  · rw [hspan e he]
    exact h.fits e he

/-- **Every call that meets the condition keeps the invariant.** -/
theorem Inv.step {lo : Nat} {e : Event} (h : Inv L lo s) (hob : Obtainable L s e)
    (hstep : Step L s e s') :
    Inv L lo s' := by
  cases hstep with
  | failed run =>
    obtain ⟨_, hheap, -⟩ := h.started
    obtain ⟨r, s₁, hrun, -, -, hzero, -⟩ := malloc_spec h hheap hob
    rw [run] at hrun
    cases hrun
    rw [hzero rfl]
    exact h.of_started
  | malloc some run =>
    obtain ⟨_, hheap, -⟩ := h.started
    obtain ⟨r, s₁, hrun, hkept, -, -, hhanded⟩ := malloc_spec h hheap hob
    rw [run] at hrun
    cases hrun
    exact h.handed (hhanded some) hkept
  | free used run =>
    obtain ⟨s₁, hrun, -, -, hinv⟩ := h.free used
    rw [run] at hrun
    cases hrun
    exact hinv
  | store used payload within => exact h.store used payload within

/-! ## Every run -/

/-- **The free list** `fs`: circular in the order of the addresses, without two blocks that touch,
and apart from the blocks in use. -/
structure FreeList (L : Layout) (s : State) (fs : List Span) : Prop where
  circular : Linked (fun a => (s.mem a).ptr) (L.base :: (starts fs ++ [L.base]))
  entry : s.freep ∈ L.base :: starts fs
  sizes : ∀ f ∈ fs, f.len = headerSize * (s.mem f.start).size
  merged : fs.Pairwise fun a b => a.stop < b.start
  within : ∀ f ∈ fs, L.heapStart ≤ f.start ∧ f.stop ≤ s.sz
  apart : ∀ f ∈ fs, ∀ b ∈ s.used, f.Disjoint (s.span b)

/-- **The heap is sound**: the blocks in use are as large as was asked for, lie in the heap and do
not overlap, headers included. `malloc` returns, with `0` if and only if the memory cannot be
obtained, and no call changes a block that stays in use. -/
structure HeapSafe (L : Layout) (s : State) : Prop where
  within : ∀ b ∈ s.used, L.heapStart ≤ b.header ∧
    b.header + headerSize + b.nbytes ≤ (s.span b).stop ∧ (s.span b).stop ≤ s.sz
  disjoint : s.used.Pairwise fun b c => (s.span b).Disjoint (s.span c)
  list : ∃ fs, FreeList L (start L s) fs ∧ ∀ nbytes mapped, Obtainable L s (.malloc nbytes mapped) →
    ∃ r s', malloc L mapped nbytes s = .ok (r, s') ∧
    (r = 0 ↔ ¬ HasRoom (start L s) fs (units nbytes)) ∧
      Untouched (s.used.map s.span) s s'
  free : ∀ b ∈ s.used, ∃ s', free s (b.header + headerSize) = .ok s' ∧
    Untouched ((s.used.erase b).map s.span) s s'

/-- The list is that of the invariant. -/
theorem Heap.freeList {lo : Nat} (h : Heap L.base lo s fs (s.used.map s.span))
    (hlo : L.heapStart ≤ lo) : FreeList L s fs where
  circular := h.list.linked
  entry := h.entry
  sizes := h.list.sizes
  merged := h.arena.sorted
  within f hf := by
    have hin := h.arena.inside f (Or.inl hf)
    exact ⟨hlo.trans hin.1, hin.2.2⟩
  apart f hf b hb := h.arena.cross f hf _ (List.mem_map_of_mem hb)

theorem Inv.heapSafe {lo : Nat} (h : Inv L lo s) : HeapSafe L s where
  within b hb := by
    obtain ⟨fs, hheap⟩ := h.heap (h.freep_ne hb)
    have hin := hheap.arena.inside _ (Or.inr (List.mem_map_of_mem hb))
    have hfits := h.fits b hb
    refine ⟨h.start.trans hin.1, ?_, hin.2.2⟩
    unfold Span.stop
    rw [Nat.add_assoc]
    exact Nat.add_le_add_left hfits _
  disjoint := by
    obtain ⟨fs, hheap, -⟩ := h.started
    exact List.pairwise_map.mp hheap.arena.disjoint
  list := by
    obtain ⟨fs, hheap, hused, hsz, hkept⟩ := h.started
    have hspans := hkept.map_span fun d hd => ⟨List.mem_map_of_mem hd, h.span_pos hd⟩
    have hheap' : Heap L.base lo (Umalloc.start L s) fs
        ((Umalloc.start L s).used.map (Umalloc.start L s).span) := by rwa [hused, hspans]
    refine ⟨fs, hheap'.freeList h.start, fun nbytes mapped hob => ?_⟩
    obtain ⟨r, s', hrun, hkept', hr, -, -⟩ := malloc_spec h hheap hob
    exact ⟨r, s', hrun, hr, hkept'⟩
  free b hb := by
    obtain ⟨s', hrun, -, hkept, -⟩ := h.free hb
    exact ⟨s', hrun, hkept⟩

/-- **`malloc` hands out memory that it has**, in every run in which no byte count is narrowed to
one that `growproc` accepts. -/
theorem malloc_safe {s₀ : State} {es : List Event} (hfreep : s₀.freep = 0) (hused : s₀.used = [])
    (hheap : L.heapStart ≤ s₀.sz) (hsz : s₀.sz ≤ trapframeVa)
    (hrun : Run.Meets (Step L) (Obtainable L) s₀ es s) :
    HeapSafe L s := by
  have hstart : Inv L s₀.sz s₀ := ⟨hheap, Nat.le_refl _, Nat.le_add_right _ _, hsz, fun _ => hused,
    fun hne => absurd hfreep hne, fun d hd => absurd (hused ▸ hd) List.not_mem_nil⟩
  exact (Run.invariant_of_meets (fun _ _ _ h hob hstep => h.step hob hstep) hrun hstart).heapSafe

/-! ## Runs on memory that is there -/

/-- What a call does, computed. -/
def next (L : Layout) (s : State) : Event → Option State
  | .malloc nbytes mapped =>
    match malloc L mapped nbytes s with
    | .error _ => none
    | .ok (r, s') => if r = 0 then some s'
        else some { s' with used := ⟨r - headerSize, nbytes.toNat⟩ :: s'.used }
  | .free b =>
    if b ∈ s.used then
      match free s (b.header + headerSize) with
      | .error _ => none
      | .ok s' => some { s' with used := s'.used.erase b }
    else none
  | .store a h =>
    if ∃ b ∈ s.used, b.header + headerSize ≤ a ∧ a + headerSize ≤ (s.span b).stop then
      some { s with mem := Function.update s.mem a h }
    else none

theorem step_of_next {e : Event} (h : next L s e = some s') : Step L s e s' := by
  cases e with
  | malloc nbytes mapped =>
    rw [next] at h
    cases hrun : malloc L mapped nbytes s with
    | error =>
      rw [hrun] at h
      cases h
    | ok res =>
      obtain ⟨r, s₁⟩ := res
      rw [hrun] at h
      dsimp only at h
      by_cases hr : r = 0
      · rw [if_pos hr] at h
        obtain rfl := Option.some.inj h
        exact .failed (by rw [hrun, hr])
      · rw [if_neg hr] at h
        obtain rfl := Option.some.inj h
        exact .malloc hr hrun
  | free b =>
    rw [next] at h
    by_cases hb : b ∈ s.used
    · rw [if_pos hb] at h
      cases hrun : Umalloc.free s (b.header + headerSize) with
      | error =>
        rw [hrun] at h
        cases h
      | ok s₁ =>
        rw [hrun] at h
        obtain rfl := Option.some.inj h
        exact .free hb hrun
    · rw [if_neg hb] at h
      cases h
  | store a w =>
    rw [next] at h
    by_cases hb : ∃ b ∈ s.used, b.header + headerSize ≤ a ∧ a + headerSize ≤ (s.span b).stop
    · rw [if_pos hb] at h
      obtain rfl := Option.some.inj h
      obtain ⟨b, hb, hlo, hhi⟩ := hb
      exact .store hb hlo hhi
    · rw [if_neg hb] at h
      cases h

/-- A program with an image of five pages. -/
def fivePages : Layout := ⟨0x1000, 0x5000, by decide, by decide⟩

/-- Its memory before the first request. -/
def fresh : State := { mem := fun _ => {}, sz := 0x5000 }

/-- Two blocks are taken and the first one is freed; the next one is taken from memory
that is joined with it. -/
def takeAndFree : List Event :=
  [.malloc 100 false, .malloc 40000 false, .free ⟨0x14f80, 100⟩, .malloc 70000 false]

instance (L : Layout) (s : State) : (e : Event) → Decidable (Obtainable L s e)
  | .malloc nbytes _ => inferInstanceAs (Decidable (units nbytes * headerSize < 2 ^ 31 ∨
      growproc L.heapStart (sbrkCount (units nbytes)) s.sz = none))
  | .free _ => inferInstanceAs (Decidable True)
  | .store _ _ => inferInstanceAs (Decidable True)

/-- A call that meets the condition. -/
def nextObtainable (L : Layout) (s : State) (e : Event) : Option State :=
  if Obtainable L s e then next L s e else none

set_option maxRecDepth 100000 in
/-- The heap grows for the first block and for the last one, which is the end of the new memory: the
block that was freed lies before it. -/
theorem malloc_safe_joined :
    ∃ s, Run.Meets (Step fivePages) (Obtainable fivePages) fresh takeAndFree s ∧
    s.used = [⟨0x15000, 70000⟩, ⟨0xb330, 40000⟩] ∧ HeapSafe fivePages s := by
  have hsome : (Run.after (nextObtainable fivePages) takeAndFree fresh).map State.used =
      some [⟨0x15000, 70000⟩, ⟨0xb330, 40000⟩] := by
    decide +kernel
  obtain ⟨s, hs, hused⟩ := Option.map_eq_some_iff.mp hsome
  have hnext : ∀ s e s', nextObtainable fivePages s e = some s' → Obtainable fivePages s e ∧
    Step fivePages s e s' := by
    intro s e s' h
    unfold nextObtainable at h
    by_cases hob : Obtainable fivePages s e
    · rw [if_pos hob] at h
      exact ⟨hob, step_of_next h⟩
    · rw [if_neg hob] at h
      cases h
  have hrun := Run.meets_of_after hnext takeAndFree (.nil _) hs
  exact ⟨s, hrun, hused, malloc_safe rfl rfl (Nat.le_refl _) (by decide) hrun⟩

/-- A block up to the break is taken, with a store at its end, and then 2 GiB are asked for. -/
def narrowed : List Event := [.malloc 100000 false, .store 0x1d6a0 {}, .malloc 0x80000000 true]

set_option maxRecDepth 100000 in
/-- A block of 2 GiB that starts at the break is handed out. -/
theorem malloc_behind_break : ∃ s, Run (Step fivePages) fresh narrowed s ∧
    ⟨0x1d6b0, 0x80000000⟩ ∈ s.used ∧ s.sz = 0x1d6b0 ∧ ¬ HeapSafe fivePages s := by
  have hsome : (Run.after (next fivePages) narrowed fresh).map (fun s => (s.used.head?, s.sz)) =
      some (some ⟨0x1d6b0, 0x80000000⟩, 0x1d6b0) := by
    decide +kernel
  obtain ⟨s, hs, heq⟩ := Option.map_eq_some_iff.mp hsome
  rw [Prod.mk.injEq] at heq
  have hmem := List.mem_of_head? heq.1
  have hnext : ∀ s e s', next fivePages s e = some s' → True ∧ Step fivePages s e s' :=
    fun _ _ _ h => ⟨trivial, step_of_next h⟩
  have hrun := Run.meets_of_after hnext narrowed (.nil _) hs
  refine ⟨s, hrun.run, hmem, heq.2, fun h => ?_⟩
  obtain ⟨-, hfits, hbreak⟩ := h.within _ hmem
  rw [heq.2] at hbreak
  exact absurd (hfits.trans hbreak) (by decide)

end Xv6.Umalloc
