import OsnMp2.Kernel.Paging
import OsnMp2.Lib.Radix
import OsnMp2.Lib.Ownership
import Mathlib.Order.BooleanAlgebra.Set

/-!
# Address spaces in physical memory

An address space is a page table together with the frames it owns: its page-table pages and the
user pages it maps. The trampoline and the trap frame are mapped by every address space of a
process and owned by none of them; they are the `shared` frames.

`Space m root shared own` says that the page table at `root` is a tree of distinct frames, that
its user pages are distinct from each other and from its page-table pages, that `own` is exactly
what it owns, and that no frame of it is free.

## Main definitions

* `Mem.node`, `Mem.leaf`: the page-table pages and the valid entries of a page table
* `Space`: an address space in physical memory

## Main results

* `lookup_eq_leaf`, `walk_noalloc`: the searches of the code in terms of the tree
* `kalloc_spec`, `kfree_spec`: the allocator as ownership of frames
* `Space.congr`: an address space depends on its own frames only
* `Space.addTable`, `Space.mapLeaf`, `Space.unmapLeaf`: the three ways the code changes a tree
-/

namespace Xv6

/-! ## The tree of a page table -/

/-- Where a valid entry points to. -/
def Pte.next (e : Pte) : Option Frame := if e.v then some e.ppn else none

/-- Physical memory as a heap of page-table pages. -/
def Mem.tbl (m : Mem) (f : Frame) (i : Fin 512) : Pte := (m.phys f).pte i

/-- Physical memory as a heap of pages with its free list. -/
def Mem.store (m : Mem) : Store Frame PhysPage := ⟨m.freelist, m.phys⟩

/-- The frame at the end of a path in the page table at `root`. -/
def Mem.node (m : Mem) (root : Frame) (p : List (Fin 512)) : Option Frame :=
  Radix.node Pte.next m.tbl root p

/-- The valid entry `i` of the page-table page at the end of a path. -/
def Mem.leaf (m : Mem) (root : Frame) (p : List (Fin 512)) (i : Fin 512) : Option Pte :=
  (m.node root p).bind fun a => if (m.tbl a i).v then some (m.tbl a i) else none

/-- The path from the root to the page-table page with the entry of `va`. -/
def vpath (va : Nat) : List (Fin 512) := [px 2 va, px 1 va]

@[simp] theorem length_vpath (va : Nat) : (vpath va).length = 2 := rfl

@[simp] theorem store_free (m : Mem) : m.store.free = m.freelist := rfl

@[simp] theorem store_heap (m : Mem) : m.store.heap = m.phys := rfl

theorem Pte.next_eq_some {e : Pte} {f : Frame} : e.next = some f ↔ e.v = true ∧ e.ppn = f := by
  unfold Pte.next
  split <;> simp_all

theorem Pte.next_eq_none {e : Pte} : e.next = none ↔ e.v = false := by
  unfold Pte.next
  split <;> simp_all

@[simp] theorem Pte.next_zero : Pte.zero.next = none := rfl

theorem leaf_eq_some {m : Mem} {root : Frame} {p : List (Fin 512)} {i : Fin 512} {e : Pte} :
    m.leaf root p i = some e ↔ ∃ a, m.node root p = some a ∧ (m.tbl a i).v = true ∧
    m.tbl a i = e := by
  unfold Mem.leaf
  cases m.node root p with
  | none => simp
  | some a =>
    simp only [Option.bind_some, Option.some.injEq, exists_eq_left']
    split
    · next h => simp [h]
    · next h => simp [h]

/-- A valid entry leads to its frame. -/
theorem node_of_leaf {m : Mem} {root : Frame} {p : List (Fin 512)} {i : Fin 512} {e : Pte}
    (h : m.leaf root p i = some e) : m.node root (p ++ [i]) = some e.ppn := by
  obtain ⟨a, ha, hv, rfl⟩ := leaf_eq_some.mp h
  unfold Mem.node at ha ⊢
  rw [Radix.node_concat, ha]
  exact Pte.next_eq_some.mpr ⟨hv, rfl⟩

theorem leaf_of_node {m : Mem} {root : Frame} {p : List (Fin 512)} {i : Fin 512} {f : Frame}
    (h : m.node root (p ++ [i]) = some f) : ∃ e, m.leaf root p i = some e ∧ e.ppn = f := by
  unfold Mem.node at h
  rw [Radix.node_concat] at h
  cases ha : Radix.node Pte.next m.tbl root p with
  | none => simp [ha] at h
  | some a =>
    rw [ha, Option.bind_some] at h
    obtain ⟨hv, hf⟩ := Pte.next_eq_some.mp h
    exact ⟨m.tbl a i, leaf_eq_some.mpr ⟨a, ha, hv, rfl⟩, hf⟩

/-- **The hardware's and the kernel's search** find the entry at the end of the path. -/
theorem lookup_eq_leaf (m : Mem) (root : Frame) (va : Nat) :
    m.lookup root va = m.leaf root (vpath va) (px 0 va) := by
  simp only [Mem.lookup, Mem.leaf, Mem.node, vpath, Radix.node_cons, Radix.node_nil,
    Mem.tbl, Pte.next]
  split
  · next h2 =>
    split
    · next h1 =>
      simp only [h2, h1, if_true, Option.bind_some]
      rfl
    · next h1 => simp [h2, h1]
  · next h2 => simp [h2]

theorem px_pgRoundDown (level va : Nat) : px level (pgRoundDown va) = px level va := by
  unfold px pgRoundDown
  have hpow : 2 ^ (12 + 9 * level) = 4096 * 2 ^ (9 * level) := by rw [Nat.pow_add]
  simp only [hpow, ← Nat.div_div_eq_div_mul, pgSize]
  congr 3
  omega

@[simp] theorem vpath_pgRoundDown (va : Nat) : vpath (pgRoundDown va) = vpath va := by
  simp [vpath, px_pgRoundDown]

@[simp] theorem lookup_pgRoundDown (m : Mem) (root : Frame) (va : Nat) :
    m.lookup root (pgRoundDown va) = m.lookup root va := by
  simp [lookup_eq_leaf, px_pgRoundDown]

/-- Below `MAXVA`, a page is determined by its path and its index. -/
theorem page_eq_of_vpath {va va' : Nat} (hva : va < maxVa) (hva' : va' < maxVa)
    (hp : vpath va = vpath va') (hi : px 0 va = px 0 va') : va / pgSize = va' / pgSize := by
  simp only [vpath, px, List.cons.injEq, Fin.mk.injEq, and_true] at hp hi
  simp only [maxVa, pgSize] at *
  omega

theorem vpath_eq_of_page {va va' : Nat} (h : va / pgSize = va' / pgSize) :
    vpath va = vpath va' ∧ px 0 va = px 0 va' := by
  have hr : pgRoundDown va = pgRoundDown va' := by rw [pgRoundDown, pgRoundDown, h]
  refine ⟨?_, ?_⟩
  · rw [← vpath_pgRoundDown va, hr, vpath_pgRoundDown]
  · rw [← px_pgRoundDown 0 va, hr, px_pgRoundDown]

/-! ## Searching without allocation -/

theorem readPte_apply (f : Frame) (i : Fin 512) (m : Mem) :
    readPte f i m = .ok (m.tbl f i, m) := rfl

theorem walkLevel_noalloc (va : Nat) (m : Mem) :
    ∀ level pt, walkLevel va false level pt m =
      .ok ((Radix.node Pte.next m.tbl pt ((List.range level).reverse.map fun l => px
        (l + 1) va)).map (fun a => (a, px 0 va)), m) := by
  intro level
  induction level with
  | zero => intro pt; rfl
  | succ level ih =>
    intro pt
    rw [walkLevel, Halting.bind_of_ok (readPte_apply _ _ _), List.range_succ, List.reverse_append,
      List.reverse_singleton, List.singleton_append, List.map_cons, Radix.node_cons]
    cases hv : (m.tbl pt (px (level + 1) va)).v with
    | true =>
      rw [if_pos rfl, ih, Pte.next_eq_some.mpr ⟨hv, rfl⟩]
      rfl
    | false =>
      rw [if_neg (by simp), if_neg (by simp), Pte.next_eq_none.mpr hv]
      rfl

/-- **`walk` without allocation** finds the page-table page at the end of the path, and changes
nothing. -/
theorem walk_noalloc {va : Nat} (hva : va < maxVa) (root : Frame) (m : Mem) :
    walk root va false m = .ok ((m.node root (vpath va)).map (fun a => (a, px 0 va)), m) := by
  unfold walk
  rw [if_neg (by omega), walkLevel_noalloc]
  rfl

theorem lt_maxVa_of_walk {root : Frame} {va : Nat} {alloc : Bool} {m m' : Mem}
    {r : Option (Frame × Fin 512)} (h : walk root va alloc m = .ok (r, m')) : va < maxVa := by
  by_contra hva
  unfold walk at h
  rw [if_pos (by omega)] at h
  cases h

/-! ## The allocator -/

/-- `kalloc` takes a frame from the free list, or finds none. -/
theorem kalloc_cases {m m' : Mem} {r : Option Frame} (h : kalloc m = .ok (r, m')) :
    (r = none ∧ m'.freelist = m.freelist ∧ m'.phys = m.phys ∧ m'.tramp = m.tramp ∧
      m'.refreed = m.refreed) ∨
    ∃ f, r = some f ∧ m.freelist = f :: m'.freelist ∧
      m'.phys = Function.update m.phys f (PhysPage.fill 5) ∧ m'.tramp = m.tramp ∧
      m'.refreed = m.refreed := by
  unfold kalloc at h
  split at h
  · cases h
    exact Or.inl ⟨rfl, rfl, rfl, rfl, rfl⟩
  · cases h
    exact Or.inl ⟨rfl, rfl, rfl, rfl, rfl⟩
  · next hfree _ =>
    cases h
    exact Or.inr ⟨_, rfl, hfree, rfl, rfl, rfl⟩

theorem kalloc_kend {m m' : Mem} {r : Option Frame} (h : kalloc m = .ok (r, m')) :
    m'.kend = m.kend := by
  unfold kalloc at h
  split at h <;> cases h <;> rfl

/-- `kfree` accepts an allocatable frame, and puts it on the free list. -/
theorem kfree_cases {m m' : Mem} {f : Frame} (h : kfree f m = .ok ((), m')) :
    m' = { m.setPage f (PhysPage.fill 1) with
      freelist := f :: m.freelist, refreed := m.refreed || decide (f ∈ m.freelist) } ∧
      m.Allocatable f := by
  unfold kfree at h
  split at h
  · next ha =>
    cases h
    exact ⟨rfl, ha⟩
  · cases h

/-- A local action on physical memory: the frames of others, the trampoline and the end of the
kernel are as they were, and no free page was freed. -/
structure Mem.Acts (m : Mem) (own : Set Frame) (m' : Mem) (own' : Set Frame) : Prop where
  loc : m.store.Local own m'.store own'
  tramp : m'.tramp = m.tramp
  refreed : m'.refreed = m.refreed
  kend : m'.kend = m.kend

section Acts

variable {m m' m'' : Mem} {own own' own'' other : Set Frame}

theorem Mem.Acts.refl (h : m.store.Owned own) : m.Acts own m own :=
  ⟨Store.Local.refl h, rfl, rfl, rfl⟩

theorem Mem.Acts.trans (h : m.Acts own m' own') (h' : m'.Acts own' m'' own'') :
    m.Acts own m'' own'' :=
  ⟨h.loc.trans h'.loc, h'.tramp.trans h.tramp, h'.refreed.trans h.refreed, h'.kend.trans h.kend⟩

theorem Mem.Acts.frame (h : m.Acts own m' own') (hs : m.store.Owned other)
    (hown : ∀ a ∈ other, a ∉ own) : m.Acts (own ∪ other) m' (own' ∪ other) :=
  ⟨h.loc.frame hs hown, h.tramp, h.refreed, h.kend⟩

/-- What an action frees for good is taken from what a larger owner has. -/
theorem Mem.Acts.frame_sdiff (h : m.Acts other m' ∅) (hs : m.store.Owned own) (hsub : other ⊆ own) :
    m.Acts own m' (own \ other) := by
  have hfr := h.frame (hs.mono (fun a ha => ha.1 : own \ other ⊆ own)) fun a ha => ha.2
  rwa [Set.empty_union, Set.union_sdiff_cancel hsub] at hfr

theorem Mem.Acts.owned (h : m.Acts own m' own') : m'.store.Owned own' := h.loc.owned

theorem Mem.Acts.mem_total (h : m.Acts own m' own') (a : Frame) :
    (a ∈ own' ∨ a ∈ m'.freelist) ↔ (a ∈ own ∨ a ∈ m.freelist) := h.loc.total a

theorem Mem.Acts.allocatable (h : m.Acts own m' own') (a : Frame) :
    m'.Allocatable a ↔ m.Allocatable a := by
  unfold Mem.Allocatable
  rw [h.kend]

theorem Mem.Acts.phys (h : m.Acts own m' own') {a : Frame} (ha : a ∉ own) (hf : a ∉ m.freelist) :
    m'.phys a = m.phys a := h.loc.outside a ha hf

end Acts

/-- **`kalloc` gives ownership** of a frame that was free. -/
theorem kalloc_spec {m m' : Mem} {r : Option Frame} {own : Set Frame} (h : kalloc m = .ok (r, m'))
    (ho : m.store.Owned own) :
    (r = none ∧ m.Acts own m' own ∧ m'.phys = m.phys ∧ m'.freelist = m.freelist) ∨
    ∃ f, r = some f ∧ m.Acts own m' (insert f own) ∧ f ∈ m.freelist ∧ f ∉ own ∧
      ∀ a, a ≠ f → m'.phys a = m.phys a := by
  rcases kalloc_cases h with ⟨hr, hfree, hphys, htr, hre⟩ | ⟨f, hr, hfree, hphys, htr, hre⟩
  · have hst : m'.store = m.store := by rw [Mem.store, Mem.store, hfree, hphys]
    refine Or.inl ⟨hr, ⟨?_, htr, hre, kalloc_kend h⟩, hphys, hfree⟩
    rw [hst]
    exact Store.Local.refl ho
  · have hnd : (f :: m'.freelist).Nodup := hfree ▸ ho.nodup
    have hmem : f ∈ m.freelist := hfree ▸ List.mem_cons_self
    have hnot : f ∉ own := ho.disjoint f hmem
    have hother : ∀ a, a ≠ f → m'.phys a = m.phys a := fun a ha => by
      rw [hphys, Function.update_of_ne ha]
    refine Or.inr ⟨f, hr, ⟨⟨⟨(List.nodup_cons.mp hnd).2, ?_⟩, ?_, ?_⟩, htr, hre, kalloc_kend h⟩,
      hmem, hnot, hother⟩
    · rintro a ha (rfl | hown)
      · exact (List.nodup_cons.mp hnd).1 ha
      · refine ho.disjoint a ?_ hown
        rw [store_free, hfree]
        exact List.mem_cons_of_mem f ha
    · intro a
      simp only [store_free, hfree, List.mem_cons, Set.mem_insert_iff]
      tauto
    · intro a _ ha
      refine hother a fun haf => ha ?_
      rw [haf]
      exact hmem

/-- **`kfree` gives ownership back.** -/
theorem kfree_spec {m m' : Mem} {f : Frame} {own : Set Frame} (h : kfree f m = .ok ((), m'))
    (ho : m.store.Owned own) (hf : f ∈ own) :
    m.Acts own m' (own \ {f}) ∧ (∀ a, a ≠ f → m'.phys a = m.phys a) ∧
      m'.freelist = f :: m.freelist := by
  obtain ⟨rfl, -⟩ := kfree_cases h
  have hother : ∀ a, a ≠ f → Function.update m.phys f (PhysPage.fill 1) a = m.phys a :=
    fun a ha => Function.update_of_ne ha _ _
  have hnot : f ∉ m.freelist := fun hc => ho.disjoint f hc hf
  refine ⟨⟨⟨⟨?_, ?_⟩, ?_, ?_⟩, rfl, by simp [hnot], rfl⟩, hother, rfl⟩
  · exact List.nodup_cons.mpr ⟨hnot, ho.nodup⟩
  · rintro a ha ⟨hown, hne⟩
    rcases List.mem_cons.mp ha with rfl | ha
    · exact hne rfl
    · exact ho.disjoint a ha hown
  · intro a
    simp only [store_free, List.mem_cons, Set.mem_sdiff, Set.mem_singleton_iff]
    by_cases haf : a = f
    · subst haf
      simp [hf]
    · simp [haf]
  · intro a hown _
    refine hother a fun haf => hown ?_
    rw [haf]
    exact hf

/-- Writing an owned page is a local action. -/
theorem setPage_acts {m : Mem} {f : Frame} {pg : PhysPage} {own : Set Frame}
    (ho : m.store.Owned own) (hf : f ∈ own) : m.Acts own (m.setPage f pg) own := by
  refine ⟨⟨⟨ho.nodup, ho.disjoint⟩, fun _ => Iff.rfl, fun a hown _ => ?_⟩, rfl, rfl, rfl⟩
  refine Function.update_of_ne (fun haf => hown ?_) _ _
  rw [haf]
  exact hf

theorem phys_setPage_of_ne {m : Mem} {f a : Frame} {pg : PhysPage} (h : a ≠ f) :
    (m.setPage f pg).phys a = m.phys a := Function.update_of_ne h _ _

theorem tbl_setPte (m : Mem) (f : Frame) (i : Fin 512) (e : Pte) :
    (m.setPte f i e).tbl = Radix.setEntry m.tbl f i e := by
  funext a j
  unfold Radix.setEntry Mem.tbl Mem.setPte Mem.setPage
  by_cases ha : a = f
  · subst ha
    by_cases hj : j = i
    · subst hj
      simp
    · simp [hj]
  · simp [ha]

theorem byte_setPte (m : Mem) (f : Frame) (i : Fin 512) (e : Pte) (a : Frame) :
    ((m.setPte f i e).phys a).byte = (m.phys a).byte := by
  unfold Mem.setPte Mem.setPage
  by_cases ha : a = f
  · subst ha
    simp
  · simp [ha]

@[simp] theorem tbl_fill_zero (m : Mem) (f : Frame) (i : Fin 512) :
    (m.setPage f (PhysPage.fill 0)).tbl f i = Pte.zero := by
  simp only [Mem.tbl, Mem.setPage, Function.update_self, PhysPage.fill]
  decide

/-! ## Address spaces -/

/-- **An address space**: the page table at `root` owns exactly the frames `own`, and maps besides
them only `shared` frames. -/
structure Space (m : Mem) (root : Frame) (shared own : Set Frame) : Prop where
  /-- different paths lead to different frames -/
  sep : Radix.Separated Pte.next m.tbl root 3
  /-- the owned frames are those of the tree that are not shared -/
  mem_own : ∀ a, a ∈ own ↔ a ∉ shared ∧ ∃ p, p.length ≤ 3 ∧ m.node root p = some a
  /-- page-table pages are not shared -/
  table : ∀ p a, p.length ≤ 2 → m.node root p = some a → a ∉ shared
  /-- an entry above the last level has no permission bits -/
  inner : ∀ p a i, p.length ≤ 1 → m.node root p = some a → (m.tbl a i).v = true →
    (m.tbl a i).perm = {}
  /-- an entry of the last level is readable -/
  readable : ∀ p i e, p.length = 2 → m.leaf root p i = some e → e.perm.r = true
  /-- the user pages are those that are not shared -/
  user : ∀ p i e, p.length = 2 → m.leaf root p i = some e → (e.perm.u = true ↔ e.ppn ∉ shared)
  /-- the mapped addresses are below `MAXVA` -/
  low : ∀ p i e, p.length = 2 → m.leaf root p i = some e → ∃ va < maxVa, p = vpath va ∧ i = px 0 va
  /-- no frame of the address space is free -/
  owned : m.store.Owned own
  /-- no shared frame is free -/
  shared_free : ∀ a ∈ m.freelist, a ∉ shared

section Space

variable {m m' : Mem} {root : Frame} {shared own own' : Set Frame}

theorem Space.table_own (h : Space m root shared own) {p : List (Fin 512)} {a : Frame}
    (hp : p.length ≤ 2) (ha : m.node root p = some a) : a ∈ own :=
  (h.mem_own a).mpr ⟨h.table p a hp ha, p, by omega, ha⟩

theorem Space.leaf_own (h : Space m root shared own) {p : List (Fin 512)} {i : Fin 512} {e : Pte}
    (hp : p.length = 2) (he : m.leaf root p i = some e) (hu : e.perm.u = true) : e.ppn ∈ own :=
  (h.mem_own _).mpr ⟨(h.user p i e hp he).mp hu, p ++ [i], by simp [hp], node_of_leaf he⟩

/-- The frames that become free were owned or free, so none of them is shared. -/
theorem Space.shared_free_of_acts (h : Space m root shared own)
    (hl : m.Acts own m' own') : ∀ a ∈ m'.freelist, a ∉ shared := by
  intro a ha
  rcases (hl.mem_total a).mp (Or.inr ha) with hown | hfree
  · exact ((h.mem_own a).mp hown).1
  · exact h.shared_free a hfree

/-- Memories that agree on the page-table pages have the same tree. -/
theorem node_congr_tables
    (htbl : ∀ p a, p.length ≤ 2 → m.node root p = some a → m'.tbl a = m.tbl a)
    {p : List (Fin 512)} (hp : p.length ≤ 3) : m'.node root p = m.node root p :=
  Radix.node_congr (fun q a i hq ha => by rw [htbl q a (by omega) ha]) p hp

theorem leaf_congr_tables
    (htbl : ∀ p a, p.length ≤ 2 → m.node root p = some a → m'.tbl a = m.tbl a)
    {p : List (Fin 512)} (hp : p.length = 2) (i : Fin 512) :
    m'.leaf root p i = m.leaf root p i := by
  unfold Mem.leaf
  rw [node_congr_tables htbl (by omega)]
  cases ha : m.node root p with
  | none => rfl
  | some a => simp only [Option.bind_some, htbl p a (by omega) ha]

/-- **An address space depends on its own frames only.** -/
theorem Space.congr (h : Space m root shared own)
    (htbl : ∀ p a, p.length ≤ 2 → m.node root p = some a → m'.tbl a = m.tbl a)
    (ho : m'.store.Owned own) (hsf : ∀ a ∈ m'.freelist, a ∉ shared) : Space m' root shared own := by
  have hnode : ∀ {p : List (Fin 512)}, p.length ≤ 3 → m'.node root p = m.node root p :=
    fun hp => node_congr_tables htbl hp
  constructor
  · intro p q a hp hq hpa hqa
    exact h.sep p q a hp hq ((hnode hp).symm.trans hpa) ((hnode hq).symm.trans hqa)
  · intro a
    rw [h.mem_own]
    refine and_congr_right fun _ => exists_congr fun p => and_congr_right fun hp => ?_
    rw [hnode hp]
  · intro p a hp ha
    exact h.table p a hp ((hnode (by omega)).symm.trans ha)
  · intro p a i hp ha hv
    rw [hnode (by omega)] at ha
    rw [htbl p a (by omega) ha] at hv ⊢
    exact h.inner p a i hp ha hv
  · intro p i e hp he
    exact h.readable p i e hp (leaf_congr_tables htbl hp i ▸ he)
  · intro p i e hp he
    exact h.user p i e hp (leaf_congr_tables htbl hp i ▸ he)
  · intro p i e hp he
    exact h.low p i e hp (leaf_congr_tables htbl hp i ▸ he)
  · exact ho
  · exact hsf

/-- A path to a frame of an address space other than the new one `f`. -/
theorem Space.ne_of_node (h : Space m root shared own) {f a : Frame} (hf : f ∉ own)
    (hsh : f ∉ shared)
    {p : List (Fin 512)} (hp : p.length ≤ 3) (ha : m.node root p = some a) : a ≠ f := by
  rintro rfl
  exact hf ((h.mem_own a).mpr ⟨hsh, p, hp, ha⟩)

/-- **A new page-table page**: an empty entry above the last level is pointed to an empty frame. -/
theorem Space.addTable (h : Space m root shared own) {q : List (Fin 512)} {pt f : Frame}
    {i : Fin 512} (hq : q.length ≤ 1) (hpt : m.node root q = some pt) (hv : (m.tbl pt i).v = false)
    (hf : f ∉ own) (hsh : f ∉ shared) (hempty : ∀ j, m.tbl f j = Pte.zero)
    (ho : m.store.Owned (insert f own)) :
    Space (m.setPte pt i ⟨true, {}, f⟩) root shared (insert f own) ∧
      (m.setPte pt i ⟨true, {}, f⟩).node root (q ++ [i]) = some f ∧
      (∀ p a, p.length ≤ 2 → m.node root p = some a →
        (m.setPte pt i ⟨true, {}, f⟩).node root p = some a) ∧
      ∀ p j, p.length = 2 → (m.setPte pt i ⟨true, {}, f⟩).leaf root p j = m.leaf root p j := by
  have hold : (m.tbl pt i).next = none := Pte.next_eq_none.mpr hv
  have hnew : ∀ p, p.length ≤ 3 → Radix.node Pte.next m.tbl root p ≠ some f :=
    fun p hp hc => h.ne_of_node hf hsh hp hc rfl
  have hfpt : f ≠ pt := fun hc => hnew q (by omega) (hc ▸ hpt)
  have hchild : q.length + 1 < 3 → ∀ j, (m.tbl f j).next = none := fun _ j => by
    rw [hempty j]
    rfl
  have hnode : ∀ {p : List (Fin 512)}, p.length ≤ 3 → (m.setPte pt i ⟨true, {}, f⟩).node root p =
      if p = q ++ [i] then some f else m.node root p := fun hp => by
    rw [Mem.node, tbl_setPte]
    exact Radix.node_fill h.sep (by omega) hpt hold rfl hfpt hchild hp
  have hkeep : ∀ p a, p.length ≤ 3 → m.node root p = some a →
      (m.setPte pt i ⟨true, {}, f⟩).node root p = some a := by
    intro p a hp ha
    rw [hnode hp, if_neg, ha]
    rintro rfl
    rw [Mem.node, Radix.node_concat, show Radix.node Pte.next m.tbl root q = some pt from hpt,
      Option.bind_some, hold] at ha
    cases ha
  -- the entry that changed is not on the last level, and the new page has no entries
  have hleaf : ∀ p j, p.length = 2 →
      (m.setPte pt i ⟨true, {}, f⟩).leaf root p j = m.leaf root p j := by
    intro p j hp
    unfold Mem.leaf
    rw [hnode (by omega)]
    split
    · next hpq =>
      subst hpq
      have hnone : m.node root (q ++ [i]) = none := by
        rw [Mem.node, Radix.node_concat, show Radix.node Pte.next m.tbl root q = some pt from hpt]
        exact hold
      rw [hnone, Option.bind_some, tbl_setPte, Radix.setEntry_of_ne (Or.inl hfpt), hempty j]
      rfl
    · cases ha : m.node root p with
      | none => rfl
      | some a =>
        have hapt : a ≠ pt := by
          rintro rfl
          have hpq := h.sep p q a (by omega) (by omega) ha hpt
          rw [hpq] at hp
          omega
        simp only [Option.bind_some, tbl_setPte, Radix.setEntry_of_ne (Or.inl hapt)]
  refine ⟨?_, ?_, fun p a hp ha => hkeep p a (by omega) ha, hleaf⟩
  · constructor
    · rw [tbl_setPte]
      exact h.sep.fill (by omega) hpt hold rfl hnew hchild
    · intro a
      rw [Set.mem_insert_iff, h.mem_own]
      constructor
      · rintro (rfl | ⟨hash, p, hp, ha⟩)
        · exact ⟨hsh, q ++ [i], by simp; omega, by rw [hnode (by simp; omega), if_pos rfl]⟩
        · exact ⟨hash, p, hp, hkeep p a hp ha⟩
      · rintro ⟨hash, p, hp, ha⟩
        rw [hnode hp] at ha
        split at ha
        · exact Or.inl (Option.some.inj ha).symm
        · exact Or.inr ⟨hash, p, hp, ha⟩
    · intro p a hp ha
      rw [hnode (by omega)] at ha
      split at ha
      · rw [← Option.some.inj ha]
        exact hsh
      · exact h.table p a hp ha
    · intro p a j hp ha hav
      rw [hnode (by omega)] at ha
      rw [tbl_setPte] at hav ⊢
      split at ha
      · obtain rfl := Option.some.inj ha
        rw [Radix.setEntry_of_ne (Or.inl hfpt), hempty j] at hav
        cases hav
      · by_cases hij : a = pt ∧ j = i
        · obtain ⟨rfl, rfl⟩ := hij
          simp
        · rw [Radix.setEntry_of_ne (by tauto)] at hav ⊢
          exact h.inner p a j hp ha hav
    · intro p j e hp he
      exact h.readable p j e hp (hleaf p j hp ▸ he)
    · intro p j e hp he
      exact h.user p j e hp (hleaf p j hp ▸ he)
    · intro p j e hp he
      exact h.low p j e hp (hleaf p j hp ▸ he)
    · exact ⟨ho.nodup, ho.disjoint⟩
    · exact h.shared_free
  · rw [hnode (by simp; omega), if_pos rfl]

/-- Writing an entry of the last level keeps the page-table pages. -/
theorem Space.node_setPte (h : Space m root shared own) {q : List (Fin 512)} {pt : Frame}
    {i : Fin 512} {e : Pte} (hq : q.length = 2) (hpt : m.node root q = some pt)
    {p : List (Fin 512)} (hp : p.length ≤ 2) : (m.setPte pt i e).node root p = m.node root p := by
  rw [Mem.node, tbl_setPte]
  refine Radix.node_setEntry_of_not_prefix h.sep (by omega) hpt p (by omega) fun hc => ?_
  have hlen := hc.length_le
  simp only [List.length_append, List.length_singleton] at hlen
  omega

/-- What writing an entry of the last level does to the last level. -/
theorem Space.leaf_setPte (h : Space m root shared own) {q : List (Fin 512)} {pt : Frame}
    {i : Fin 512} {e : Pte} (hq : q.length = 2) (hpt : m.node root q = some pt)
    {p : List (Fin 512)} (hp : p.length = 2) (j : Fin 512) :
    (m.setPte pt i e).leaf root p j =
      if p = q ∧ j = i then (if e.v then some e else none) else m.leaf root p j := by
  unfold Mem.leaf
  rw [h.node_setPte hq hpt (by omega)]
  by_cases hpq : p = q
  · subst hpq
    rw [hpt]
    by_cases hj : j = i
    · subst hj
      simp [tbl_setPte]
    · simp only [Option.bind_some, tbl_setPte, Radix.setEntry_of_ne (Or.inr hj), hj,
        and_false, if_false]
  · rw [if_neg (by tauto)]
    cases ha : m.node root p with
    | none => rfl
    | some a =>
      have hapt : a ≠ pt := fun hc => hpq (h.sep p q a (by omega) (by omega) ha (hc ▸ hpt))
      simp only [Option.bind_some, tbl_setPte, Radix.setEntry_of_ne (Or.inl hapt)]

/-- **A new mapping**: an empty entry of the last level is pointed to a frame that is not in the
tree, a user page exactly when it is not shared. -/
theorem Space.mapLeaf (h : Space m root shared own) {va : Nat} {pt f : Frame} {perm : Perm}
    (hva : va < maxVa) (hpt : m.node root (vpath va) = some pt)
    (hv : (m.tbl pt (px 0 va)).v = false) (hnew : ∀ p, p.length ≤ 3 → m.node root p ≠ some f)
    (hr : perm.r = true) (hu : perm.u = true ↔ f ∉ shared)
    (ho : m.store.Owned (own ∪ {a | a = f ∧ a ∉ shared})) :
    Space (m.setPte pt (px 0 va) ⟨true, perm, f⟩) root shared (own ∪ {a | a = f ∧ a ∉ shared}) := by
  -- The path and the index get names, so that the rest of the proof is about the tree and not about
  -- addresses.
  obtain ⟨q, hqv⟩ : ∃ q, q = vpath va := ⟨_, rfl⟩
  obtain ⟨i, hiv⟩ : ∃ i, i = px 0 va := ⟨_, rfl⟩
  rw [← hqv] at hpt
  rw [← hiv] at hv ⊢
  have hq : q.length = 2 := hqv ▸ rfl
  have hold : (m.tbl pt i).next = none := Pte.next_eq_none.mpr hv
  have hfpt : f ≠ pt := fun hc => hnew q (by omega) (hc ▸ hpt)
  have hnode : ∀ {p : List (Fin 512)}, p.length ≤ 3 → (m.setPte pt i ⟨true, perm, f⟩).node root p =
      if p = q ++ [i] then some f else m.node root p := fun hp => by
    rw [Mem.node, tbl_setPte]
    exact Radix.node_fill h.sep (by omega) hpt hold rfl hfpt (fun hc => by omega) hp
  have hlow : ∀ {p : List (Fin 512)}, p.length ≤ 2 →
      (m.setPte pt i ⟨true, perm, f⟩).node root p = m.node root p := fun {p} hp => by
    rw [hnode (by omega), if_neg]
    rintro rfl
    simp only [List.length_append, List.length_singleton] at hp
    omega
  constructor
  · rw [tbl_setPte]
    exact h.sep.fill (by omega) hpt hold rfl hnew (fun hc => by omega)
  -- What the tree owns afterwards is what it owned before and the new frame, if that is not shared.
  · intro a
    simp only [Set.mem_union, Set.mem_ofPred_eq, h.mem_own]
    constructor
    · rintro (⟨hash, p, hp, ha⟩ | ⟨rfl, hash⟩)
      · refine ⟨hash, p, hp, ?_⟩
        rw [hnode hp, if_neg, ha]
        rintro rfl
        rw [Mem.node, Radix.node_concat, show Radix.node Pte.next m.tbl root q = some pt from hpt,
          Option.bind_some, hold] at ha
        cases ha
      · exact ⟨hash, q ++ [i], by simp; omega, by rw [hnode (by simp; omega), if_pos rfl]⟩
    · rintro ⟨hash, p, hp, ha⟩
      rw [hnode hp] at ha
      split at ha
      · obtain rfl := Option.some.inj ha
        exact Or.inr ⟨rfl, hash⟩
      · exact Or.inl ⟨hash, p, hp, ha⟩
  · intro p a hp ha
    rw [hlow hp] at ha
    exact h.table p a hp ha
  · intro p a j hp ha hav
    rw [hlow (by omega)] at ha
    -- the last table stands two steps below the root, an inner one above it
    have hapt : a ≠ pt := by
      rintro rfl
      have hpq := h.sep p q a (by omega) (by omega) ha hpt
      rw [hpq] at hp
      omega
    rw [tbl_setPte, Radix.setEntry_of_ne (Or.inl hapt)] at hav ⊢
    exact h.inner p a j hp ha hav
  · intro p j e hp he
    rw [h.leaf_setPte hq hpt hp] at he
    split at he
    · obtain rfl := Option.some.inj he
      exact hr
    · exact h.readable p j e hp he
  · intro p j e hp he
    rw [h.leaf_setPte hq hpt hp] at he
    split at he
    · obtain rfl := Option.some.inj he
      exact hu
    · exact h.user p j e hp he
  · intro p j e hp he
    rw [h.leaf_setPte hq hpt hp] at he
    split at he
    · next hpj => exact ⟨va, hva, hpj.1.trans hqv, hpj.2.trans hiv⟩
    · exact h.low p j e hp he
  · exact ⟨ho.nodup, ho.disjoint⟩
  · exact h.shared_free

/-- **An unmapping**: an entry of the last level is cleared, and its frame leaves the address
space. -/
theorem Space.unmapLeaf (h : Space m root shared own) {q : List (Fin 512)} {pt : Frame}
    {i : Fin 512} (hq : q.length = 2) (hpt : m.node root q = some pt) (hv : (m.tbl pt i).v = true) :
    Space (m.setPte pt i Pte.zero) root shared (own \ {(m.tbl pt i).ppn}) := by
  have hnode : ∀ {p : List (Fin 512)}, p.length ≤ 3 → (m.setPte pt i Pte.zero).node root p =
      if (q ++ [i]) <+: p then none else m.node root p := fun hp => by
    rw [Mem.node, tbl_setPte]
    exact Radix.node_clear h.sep (by omega) hpt rfl hp
  -- A path of three steps that passes through the cleared entry ends in it.
  have hpre : ∀ {p : List (Fin 512)}, p.length ≤ 3 → (q ++ [i]) <+: p → p = q ++ [i] :=
    fun hp hc => (hc.eq_of_length_le (by simp; omega)).symm
  have hlow : ∀ {p : List (Fin 512)}, p.length ≤ 2 →
      (m.setPte pt i Pte.zero).node root p = m.node root p := fun {p} hp => by
    rw [hnode (by omega), if_neg]
    intro hc
    have hlen := hc.length_le
    simp only [List.length_append, List.length_singleton] at hlen
    omega
  have hqi : m.node root (q ++ [i]) = some (m.tbl pt i).ppn :=
    node_of_leaf (leaf_eq_some.mpr ⟨pt, hpt, hv, rfl⟩)
  constructor
  · rw [tbl_setPte]
    exact h.sep.clear (by omega) hpt rfl
  -- The frame of the cleared entry is reached on no other path, so exactly that one is given up.
  · intro a
    rw [Set.mem_sdiff, Set.mem_singleton_iff, h.mem_own]
    constructor
    · rintro ⟨⟨hash, p, hp, ha⟩, hne⟩
      refine ⟨hash, p, hp, ?_⟩
      rw [hnode hp, if_neg, ha]
      intro hc
      rw [hpre hp hc, hqi] at ha
      exact hne (Option.some.inj ha).symm
    · rintro ⟨hash, p, hp, ha⟩
      rw [hnode hp] at ha
      split at ha
      · cases ha
      · next hc =>
        refine ⟨⟨hash, p, hp, ha⟩, ?_⟩
        rintro rfl
        exact hc (h.sep p (q ++ [i]) _ hp (by simp; omega) ha hqi ▸ List.prefix_refl _)
  · intro p a hp ha
    rw [hlow hp] at ha
    exact h.table p a hp ha
  · intro p a j hp ha hav
    rw [hlow (by omega)] at ha
    have hapt : a ≠ pt := by
      rintro rfl
      have hpq := h.sep p q a (by omega) (by omega) ha hpt
      rw [hpq] at hp
      omega
    rw [tbl_setPte, Radix.setEntry_of_ne (Or.inl hapt)] at hav ⊢
    exact h.inner p a j hp ha hav
  · intro p j e hp he
    rw [h.leaf_setPte hq hpt hp] at he
    split at he
    · cases he
    · exact h.readable p j e hp he
  · intro p j e hp he
    rw [h.leaf_setPte hq hpt hp] at he
    split at he
    · cases he
    · exact h.user p j e hp he
  · intro p j e hp he
    rw [h.leaf_setPte hq hpt hp] at he
    split at he
    · cases he
    · exact h.low p j e hp he
  · exact Store.Owned.mono ⟨h.owned.nodup, h.owned.disjoint⟩ fun _ ha => ha.1
  · exact h.shared_free

end Space

end Xv6
