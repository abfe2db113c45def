import Mathlib.Algebra.Group.Nat.Defs
import Mathlib.Data.Nat.Bitwise
import OsnMp2.Lib.Halting
import OsnMp2.Lib.Radix
import OsnMp2.Lib.Runs

/-!
# A page table as a finite map

The functions of `vm.c` that search and change a page table, on the 64-bit words that the
hardware reads: an address is taken apart with `PX`, an entry put together with `PA2PTE` and
taken apart with `PTE2PA`.

The page-table pages form a tree of distinct frames. Then the table is a map from the pages below
`MAXVA` to entries: `mappages` adds the pages of a range, `uvmunmap` removes those of a range, and
the search that allocates, whether it succeeds or not, changes no entry.

## Main definitions

* `px`, `pa2pte`, `pte2pa`: the macros of `riscv.h`
* `walk`, `mappages`, `uvmunmap`: the functions of `vm.c`
* `Tree`, `lookup`: the shape of a page table, and the map that it is
* `FiniteMap`: the table is a map, and the calls change it as they should

## Main results

* `walk_spec`, `mappages_spec`, `uvmunmap_spec`: what the functions do to the map
* `finite_map`: the table is a map along every run
-/

namespace Xv6.Sv39

/-! ## Addresses and entries -/

/-- `uint64`. -/
abbrev Word := BitVec 64

/-- `PGSIZE`. -/
abbrev pgSize : Word := 4096

/-- `MAXVA`. -/
abbrev maxVa : Word := 0x4000000000

/-- `PHYSTOP`. -/
abbrev phystop : Word := 0x88000000

/-- `PX(level, va)`. -/
def px (level : Nat) (va : Word) : Fin 512 :=
  ⟨((va >>> (12 + 9 * level)) &&& 0x1FF).toNat, by
    rw [BitVec.toNat_and]
    exact Nat.lt_of_le_of_lt Nat.and_le_right (by decide)⟩

/-- `PA2PTE`. -/
def pa2pte (pa : Word) : Word := (pa >>> 12) <<< 10

/-- `PTE2PA`. -/
def pte2pa (pte : Word) : Word := (pte >>> 10) <<< 12

/-- `PTE_FLAGS`. -/
def pteFlags (pte : Word) : Word := pte &&& 0x3FF

/-- `PTE_V`. -/
abbrev pteV : Word := 1

/-- `pte & PTE_V`. -/
def valid (pte : Word) : Bool := pte &&& pteV ≠ 0

/-- The frame that a valid entry points to. -/
def next (pte : Word) : Option Word := if valid pte then some (pte2pa pte) else none

/-- The entry that `mappages` writes. -/
def leafPte (pa perm : Word) : Word := pa2pte pa ||| perm ||| pteV

/-! ## Memory -/

/-- The words of the physical pages, by the address of the page. -/
abbrev Memory := Word → Fin 512 → Word

/-- The panics of this module. -/
inductive Panic
  | walk | mappagesVa | mappagesSize | mappagesZero | remap | uvmunmap | kfree
deriving DecidableEq, Repr

/-- Physical memory with the end of the kernel, and the pages that `kalloc` will return,
`0` standing for none. -/
structure State where
  mem : Memory
  kend : Word
  pages : List Word

abbrev VM := Halting State Panic

/-- `memset(f, c, PGSIZE)`, with the word of eight bytes `c`. -/
def memset (f c : Word) :
    VM Unit := modify fun st => { st with mem := Function.update st.mem f fun _ => c }

/-- A page filled with junk, or `0`. -/
def kalloc : VM Word := do
  let st ← get
  match st.pages with
  | [] => return 0
  | f :: rest =>
    set { st with pages := rest }
    if f = 0 then return 0
    else
      memset f 0x0505050505050505
      return f

/-- Fill a page with junk; that it may be returned again is seen in later pages of `kalloc`. The
link of the free list, which is kept in a page while it is free, is left out. -/
def kfree (pa : Word) : VM Unit := do
  let st ← get
  if pa % pgSize ≠ 0 ∨ pa < st.kend ∨ phystop ≤ pa then Halting.halt .kfree
  else memset pa 0x0101010101010101

/-- `pagetable[i]`. -/
def readPte (t : Word) (i : Fin 512) : VM Word := do
  let st ← get
  return st.mem t i

/-- `pagetable[i] = e`. -/
def writePte (t : Word) (i : Fin 512) (e : Word) : VM Unit :=
  modify fun st => { st with mem := Radix.setEntry st.mem t i e }

/-! ## The functions of `vm.c` -/

/-- The loop of `walk`, from the page-table page of a level down. -/
def walkLevel (va : Word) (alloc : Bool) : Nat → Word → VM (Option (Word × Fin 512))
  | 0, pagetable => pure (some (pagetable, px 0 va))
  | level + 1, pagetable => do
    let pte ← readPte pagetable (px (level + 1) va)
    if valid pte then walkLevel va alloc level (pte2pa pte)
    else if !alloc then return none
    else
      let f ← kalloc
      if f = 0 then return none
      else
        memset f 0
        writePte pagetable (px (level + 1) va) (pa2pte f ||| pteV)
        walkLevel va alloc level f

/-- The place of the entry of an address, the pages to it allocated if asked for. -/
def walk (pagetable va : Word) (alloc : Bool) : VM (Option (Word × Fin 512)) :=
  if maxVa ≤ va then Halting.halt .walk else walkLevel va alloc 2 pagetable

/-- The loop of `mappages` over the pages left. -/
def mappagesLoop (pagetable perm : Word) : Nat → Word → Word → VM Int
  | 0, _, _ => pure 0
  | n + 1, a, pa => do
    let r ← walk pagetable a true
    match r with
    | none => return -1
    | some (t, i) =>
      let pte ← readPte t i
      if valid pte then Halting.halt .remap
      else
        writePte t i (leafPte pa perm)
        mappagesLoop pagetable perm n (a + pgSize) (pa + pgSize)

/-- Enter the pages of a range: `0`, or `-1` when there is no memory. -/
def mappages (pagetable va size pa perm : Word) : VM Int :=
  if va % pgSize ≠ 0 then Halting.halt .mappagesVa
  else if size % pgSize ≠ 0 then Halting.halt .mappagesSize
  else if size = 0 then Halting.halt .mappagesZero
  else mappagesLoop pagetable perm (size.toNat / 4096) va pa

/-- The loop of `uvmunmap` over the pages left. -/
def uvmunmapLoop (pagetable : Word) (doFree : Bool) : Nat → Word → VM Unit
  | 0, _ => pure ()
  | n + 1, a => do
    let r ← walk pagetable a false
    match r with
    | none => uvmunmapLoop pagetable doFree n (a + pgSize)
    | some (t, i) =>
      let pte ← readPte t i
      if !valid pte then uvmunmapLoop pagetable doFree n (a + pgSize)
      else if doFree then
        kfree (pte2pa pte)
        writePte t i 0
        uvmunmapLoop pagetable doFree n (a + pgSize)
      else
        writePte t i 0
        uvmunmapLoop pagetable doFree n (a + pgSize)

/-- The pages from `va` up to the end `va + npages * PGSIZE`, which is computed with 64 bits. -/
def pagesBefore (va npages : Word) : Nat := ((va + npages * pgSize).toNat - va.toNat) / 4096

/-- Remove the pages of a range, and free the memory behind them if asked for. -/
def uvmunmap (pagetable va npages : Word) (doFree : Bool) : VM Unit :=
  if va % pgSize ≠ 0 then Halting.halt .uvmunmap
  else uvmunmapLoop pagetable doFree (pagesBefore va npages) va

/-! ## Entries -/

/-- The address of a page. -/
def Aligned (p : Word) : Prop := p.toNat % 4096 = 0

theorem toNat_px (level : Nat) (va : Word) :
    (px level va : Nat) = va.toNat / 2 ^ (12 + 9 * level) % 512 := by
  simp only [px, BitVec.toNat_and, BitVec.toNat_ushiftRight, Nat.shiftRight_eq_div_pow]
  exact Nat.and_two_pow_sub_one_eq_mod _ 9

theorem toNat_pa2pte (pa : Word) : (pa2pte pa).toNat = pa.toNat / 4096 * 1024 := by
  have hlt := pa.isLt
  simp only [pa2pte, BitVec.toNat_shiftLeft, BitVec.toNat_ushiftRight, Nat.shiftRight_eq_div_pow,
    Nat.shiftLeft_eq]
  omega

theorem valid_leafPte (pa perm : Word) : valid (leafPte pa perm) = true := by
  unfold valid leafPte
  rw [decide_eq_true_eq]
  intro hzero
  have hbit := congrArg (BitVec.getLsbD · 0) hzero
  simp at hbit

/-- **`PTE2PA` takes out what `PA2PTE` put in**, whatever the flags are. -/
theorem pte2pa_leafPte {pa perm : Word} (hpa : Aligned pa) (hperm : perm < 1024) :
    pte2pa (leafPte pa perm) = pa := by
  unfold Aligned at hpa
  have hlt := pa.isLt
  have hp : perm.toNat < 1024 := hperm
  apply BitVec.eq_of_toNat_eq
  have hor : (leafPte pa perm).toNat >>> 10 = pa.toNat / 4096 := by
    rw [leafPte, BitVec.toNat_or, BitVec.toNat_or, toNat_pa2pte, Nat.shiftRight_or_distrib,
      Nat.shiftRight_or_distrib]
    simp only [Nat.shiftRight_eq_div_pow]
    rw [Nat.div_eq_of_lt (by omega : perm.toNat < 2 ^ 10), Nat.or_zero]
    show _ ||| 0 = _
    rw [Nat.or_zero]
    omega
  rw [pte2pa, BitVec.toNat_shiftLeft, BitVec.toNat_ushiftRight, hor, Nat.shiftLeft_eq]
  omega

/-- The flags of an entry that `mappages` writes. -/
theorem pteFlags_leafPte {pa perm : Word} (hperm : perm < 1024) :
    pteFlags (leafPte pa perm) = perm ||| pteV := by
  have hp : perm.toNat < 1024 := hperm
  apply BitVec.eq_of_toNat_eq
  rw [pteFlags, leafPte, BitVec.toNat_and, BitVec.toNat_or, BitVec.toNat_or, toNat_pa2pte]
  have hmask : (0x3FF : Word).toNat = 2 ^ 10 - 1 := rfl
  rw [hmask, Nat.and_two_pow_sub_one_eq_mod, Nat.or_mod_two_pow, Nat.or_mod_two_pow,
    BitVec.toNat_or]
  rw [Nat.mod_eq_of_lt (by omega : perm.toNat < 2 ^ 10),
    (by omega : pa.toNat / 4096 * 1024 % 2 ^ 10 = 0), Nat.zero_or]
  rfl

theorem next_eq_some {e f : Word} : next e = some f ↔ valid e = true ∧ pte2pa e = f := by
  unfold next
  split <;> simp_all

theorem next_eq_none {e : Word} : next e = none ↔ valid e = false := by
  unfold next
  split <;> simp_all

@[simp] theorem valid_zero : valid 0 = false := by
  decide

/-- An entry above the last level is one without permissions. -/
theorem next_table {f : Word} (hf : Aligned f) : next (pa2pte f ||| pteV) = some f := by
  have heq : pa2pte f ||| pteV = leafPte f 0 := by
    show _ = pa2pte f ||| 0#64 ||| pteV
    rw [BitVec.or_zero]
  rw [heq]
  exact next_eq_some.mpr ⟨valid_leafPte f 0, pte2pa_leafPte hf (by decide)⟩

/-! ## The tree and the map -/

section Tree

variable {mem mem' : Memory} {root t f va x : Word} {p q : List (Fin 512)} {i : Fin 512} {e : Word}

/-- The page-table page at the end of a path. -/
def node (mem : Memory) (root : Word) (p : List (Fin 512)) : Option Word :=
  Radix.node next mem root p

/-- The path to the page-table page with the entry of `va`. -/
def vpath (va : Word) : List (Fin 512) := [px 2 va, px 1 va]

@[simp] theorem length_vpath (va : Word) : (vpath va).length = 2 := rfl

/-- **The page-table pages form a tree of distinct frames.** -/
def Tree (mem : Memory) (root : Word) : Prop := Radix.Separated next mem root 2

/-- A frame is a page-table page. -/
def IsTable (mem : Memory) (root f : Word) : Prop := ∃ p, p.length ≤ 2 ∧ node mem root p = some f

/-- The valid entry of an address. -/
def lookup (mem : Memory) (root va : Word) : Option Word :=
  (node mem root (vpath va)).bind fun t => if valid (mem t (px 0 va)) then some (mem t (px 0 va))
    else none

/-- The addresses of a page have one path and one index. -/
theorem px_of_page (h : va.toNat / 4096 = x.toNat / 4096) (level : Nat) :
    px level va = px level x := by
  apply Fin.ext
  rw [toNat_px, toNat_px, Nat.pow_add, ← Nat.div_div_eq_div_mul, ← Nat.div_div_eq_div_mul]
  show va.toNat / 4096 / _ % _ = x.toNat / 4096 / _ % _
  rw [h]

theorem vpath_of_page (h : va.toNat / 4096 = x.toNat / 4096) : vpath va = vpath x := by
  unfold vpath
  rw [px_of_page h, px_of_page h]

/-- Below `MAXVA` a page is determined by its path and its index. -/
theorem page_of_px (hva : va < maxVa) (hx : x < maxVa) (hp : vpath va = vpath x)
    (hi : px 0 va = px 0 x) : va.toNat / 4096 = x.toNat / 4096 := by
  have hlow : va.toNat < 2 ^ 38 := hva
  have hlow' : x.toNat < 2 ^ 38 := hx
  simp only [vpath, List.cons.injEq, and_true] at hp
  have h2 := congrArg Fin.val hp.1
  have h1 := congrArg Fin.val hp.2
  have h0 := congrArg Fin.val hi
  simp only [toNat_px] at h2 h1 h0
  omega

/-- Pages that are not in the tree do not matter. -/
theorem node_congr (h : ∀ f, IsTable mem root f → mem' f = mem f) (hp : p.length ≤ 2) :
    node mem' root p = node mem root p :=
  Radix.node_congr (fun q f i hq hf => by rw [h f ⟨q, by omega, hf⟩]) p hp

theorem Tree.congr (htree : Tree mem root) (h : ∀ f, IsTable mem root f → mem' f = mem f) :
    Tree mem' root := by
  intro p q f hp hq hpf hqf
  exact htree p q f hp hq ((node_congr h hp).symm.trans hpf) ((node_congr h hq).symm.trans hqf)

theorem lookup_congr (h : ∀ f, IsTable mem root f → mem' f = mem f) (va : Word) :
    lookup mem' root va = lookup mem root va := by
  unfold lookup
  rw [node_congr h (length_vpath va).le]
  cases hf : node mem root (vpath va) with
  | none => rfl
  | some t => rw [Option.bind_some, Option.bind_some, h t ⟨_, (length_vpath va).le, hf⟩]

/-- **An entry of the last level is written.** -/
theorem node_setLeaf (htree : Tree mem root) (hq : q.length = 2) (ht : node mem root q = some t)
    (hp : p.length ≤ 2) : node (Radix.setEntry mem t i e) root p = node mem root p := by
  refine Radix.node_setEntry_of_not_prefix htree (by omega) ht p hp fun hc => ?_
  have hlen := hc.length_le
  rw [List.length_append, List.length_singleton] at hlen
  omega

theorem Tree.setLeaf (htree : Tree mem root) (hq : q.length = 2) (ht : node mem root q = some t) :
    Tree (Radix.setEntry mem t i e) root := by
  intro p p' f hp hp' hpf hpf'
  exact htree p p' f hp hp' ((node_setLeaf htree hq ht hp).symm.trans hpf)
    ((node_setLeaf htree hq ht hp').symm.trans hpf')

theorem lookup_setLeaf_self (htree : Tree mem root) (ht : node mem root (vpath va) = some t) :
    lookup (Radix.setEntry mem t (px 0 va) e) root va = if valid e then some e else none := by
  unfold lookup
  rw [node_setLeaf htree (length_vpath va) ht (length_vpath va).le, ht, Option.bind_some,
    Radix.setEntry_self]

theorem lookup_setLeaf_of_ne (htree : Tree mem root) (ht : node mem root (vpath va) = some t)
    (hva : va < maxVa) (hx : x < maxVa) (hne : x.toNat / 4096 ≠ va.toNat / 4096) :
    lookup (Radix.setEntry mem t (px 0 va) e) root x = lookup mem root x := by
  unfold lookup
  rw [node_setLeaf htree (length_vpath va) ht (length_vpath x).le]
  cases hf : node mem root (vpath x) with
  | none => rfl
  | some t' =>
    rw [Option.bind_some, Option.bind_some, Radix.setEntry_of_ne]
    by_contra hc
    rw [not_or, not_not, not_not] at hc
    obtain ⟨rfl, hi⟩ := hc
    -- the entry would be that of the written page
    have hpath := htree _ _ _ (length_vpath x).le (length_vpath va).le hf ht
    exact hne (page_of_px hx hva hpath hi)

/-- The addresses of one page look up to the same entry. -/
theorem lookup_of_page (h : va.toNat / 4096 = x.toNat / 4096) :
    lookup mem root va = lookup mem root x := by
  unfold lookup
  rw [vpath_of_page h, px_of_page h]

/-- **A new page-table page**: an empty entry above the last level is pointed to an empty frame. -/
structure Filled (mem : Memory) (root : Word) (p : List (Fin 512)) (f : Word) (mem' : Memory) :
    Prop where
  tree : Tree mem' root
  node : ∀ q, q.length ≤ 2 → node mem' root q = if q = p then some f else node mem root q
  lookup : ∀ x, lookup mem' root x = lookup mem root x

theorem Tree.fill (htree : Tree mem root) (hq : q.length ≤ 1) (ht : Sv39.node mem root q = some t)
    (hv : valid (mem t i) = false) (hf : Aligned f) (hnew : ¬ IsTable mem root f) :
    Filled mem root (q ++ [i]) f
      (Radix.setEntry (Function.update mem f fun _ => 0) t i (pa2pte f ||| pteV)) := by
  -- the empty frame is not in the tree
  have hother : ∀ g, IsTable mem root g → Function.update mem f (fun _ => 0) g = mem g := by
    rintro g hg
    apply Function.update_of_ne
    rintro rfl
    exact hnew hg
  have htree₁ := htree.congr hother
  have ht₁ : Sv39.node (Function.update mem f fun _ => 0) root q = some t := by
    rw [node_congr hother (by omega)]
    exact ht
  have hnone : next (Function.update mem f (fun _ => 0) t i) = none := by
    rw [hother t ⟨q, by omega, ht⟩]
    exact next_eq_none.mpr hv
  have hft : f ≠ t := by
    rintro rfl
    exact hnew ⟨q, by omega, ht⟩
  have hempty : q.length + 1 < 2 → ∀ j, next (Function.update mem f (fun _ => 0) f j) = none := by
    intro _ j
    rw [Function.update_self]
    exact next_eq_none.mpr valid_zero
  have hnode : ∀ p : List (Fin 512), p.length ≤ 2 →
      Sv39.node (Radix.setEntry (Function.update mem f fun _ => 0) t i (pa2pte f ||| pteV)) root p =
        if p = q ++ [i] then some f else Sv39.node mem root p := by
    intro p hp
    rw [← node_congr hother hp]
    exact Radix.node_fill htree₁ (by omega) ht₁ hnone (next_table hf) hft hempty hp
  refine ⟨?_, hnode, fun x => ?_⟩
  · apply Radix.Separated.fill htree₁ (by omega) ht₁ hnone (next_table hf) _ hempty
    intro p hp hc
    exact hnew ⟨p, hp, (node_congr hother hp).symm.trans hc⟩
  · unfold Sv39.lookup
    rw [hnode _ (length_vpath x).le]
    split
    · next hpath =>
      -- the new page has no entries, and there was none
      have hbefore : Sv39.node mem root (vpath x) = none := by
        rw [hpath]
        unfold Sv39.node
        rw [Radix.node_concat]
        show (Sv39.node mem root q).bind _ = none
        rw [ht]
        exact next_eq_none.mpr hv
      rw [hbefore, Option.bind_some, Radix.setEntry_of_ne (Or.inl hft), Function.update_self,
        valid_zero]
      rfl
    · cases hx : Sv39.node mem root (vpath x) with
      | none => rfl
      | some t' =>
        have hne : t' ≠ t := by
          rintro rfl
          have hlen := congrArg List.length (htree _ _ _ (length_vpath x).le (by omega) hx ht)
          rw [length_vpath] at hlen
          omega
        rw [Option.bind_some, Option.bind_some, Radix.setEntry_of_ne (Or.inl hne),
          hother t' ⟨_, (length_vpath x).le, hx⟩]

end Tree

/-! ## What the functions do -/

/-- The answers of `kalloc` during a call are pages that are not in use by the table, or `0`. -/
structure Fresh (mem : Memory) (root : Word) (pages : List Word) : Prop where
  nodup : (pages.filter (· ≠ 0)).Nodup
  aligned : ∀ f ∈ pages, Aligned f
  new : ∀ f ∈ pages, f ≠ 0 → ¬ IsTable mem root f

section Calls

variable {st st' : State} {root va x : Word} {t f : Word} {i : Fin 512} {q : List (Fin 512)}

/-- A step of a search that allocates: the tree grows, and the map is the same. -/
structure Searched (root : Word) (st st' : State) : Prop where
  tree : Tree st'.mem root
  fresh : Fresh st'.mem root st'.pages
  node : ∀ p f, p.length ≤ 2 → node st.mem root p = some f → node st'.mem root p = some f
  lookup : ∀ x, lookup st'.mem root x = lookup st.mem root x
  kend : st'.kend = st.kend

theorem Searched.refl (htree : Tree st.mem root) (hfresh : Fresh st.mem root st.pages) :
    Searched root st st :=
  ⟨htree, hfresh, fun _ _ _ h => h, fun _ => rfl, rfl⟩

theorem Searched.trans {st'' : State} (h : Searched root st st') (h' : Searched root st' st'') :
    Searched root st st'' :=
  ⟨h'.tree, h'.fresh, fun p f hp hf => h'.node p f hp (h.node p f hp hf),
    fun x => (h'.lookup x).trans (h.lookup x), h'.kend.trans h.kend⟩

theorem readPte_apply (t : Word) (i : Fin 512) (st : State) :
    readPte t i st = .ok (st.mem t i, st) := rfl

/-- `kalloc` returns `0`, or a page that is not in use. -/
theorem kalloc_cases {f : Word} {st' : State} (hfresh : Fresh st.mem root st.pages)
    (h : kalloc st = .ok (f, st')) :
    (f = 0 ∧ st'.mem = st.mem ∧ Fresh st.mem root st'.pages ∧ st'.kend = st.kend) ∨
      (f ≠ 0 ∧ f ∈ st.pages ∧ st'.mem = Function.update st.mem f (fun _ => 0x0505050505050505) ∧
        Fresh st.mem root st'.pages ∧ f ∉ st'.pages ∧ st'.kend = st.kend) := by
  unfold kalloc at h
  rw [Halting.bind_of_ok (Halting.get_apply st)] at h
  cases hpages : st.pages with
  | nil =>
    rw [hpages] at h
    cases h
    rw [hpages] at hfresh
    refine Or.inl ⟨rfl, rfl, ?_, rfl⟩
    rw [hpages]
    exact hfresh
  | cons g rest =>
    rw [hpages] at h hfresh
    have hrest : Fresh st.mem root rest := by
      refine ⟨hfresh.nodup.sublist ((List.sublist_cons_self g rest).filter _), ?_, ?_⟩
      · exact fun a ha => hfresh.aligned a (List.mem_cons_of_mem g ha)
      · exact fun a ha => hfresh.new a (List.mem_cons_of_mem g ha)
    by_cases hg : g = 0
    · dsimp only at h
      rw [if_pos hg] at h
      cases h
      exact Or.inl ⟨rfl, rfl, hrest, rfl⟩
    · dsimp only at h
      rw [if_neg hg] at h
      cases h
      refine Or.inr ⟨hg, List.mem_cons_self, rfl, hrest, ?_, rfl⟩
      have hnodup := hfresh.nodup
      rw [List.filter_cons_of_pos (by simpa using hg)] at hnodup
      intro hmem
      exact (List.nodup_cons.mp hnodup).1 (List.mem_filter.mpr ⟨hmem, by simpa using hg⟩)

/-- The path from a page-table page of a level down to the last one. -/
def vrest (va : Word) (level : Nat) : List (Fin 512) := (List.range level).reverse.map fun l =>
    px (l + 1) va

theorem vrest_succ (va : Word) (level : Nat) :
    vrest va (level + 1) = px (level + 1) va :: vrest va level := by
  simp [vrest, List.range_succ]

/-- **The search without allocation** finds the page-table page at the end of the path. -/
theorem walkLevel_noalloc (va : Word) (st : State) (level : Nat) (t : Word) :
    walkLevel va false level t st =
      .ok ((Radix.node next st.mem t (vrest va level)).map fun t => (t, px 0 va), st) := by
  induction level generalizing t with
  | zero => rfl
  | succ level ih =>
    rw [walkLevel, Halting.bind_of_ok (readPte_apply _ _ _), vrest_succ, Radix.node_cons]
    cases hv : valid (st.mem t (px (level + 1) va)) with
    | true => rw [if_pos rfl, ih, next_eq_some.mpr ⟨hv, rfl⟩, Option.bind_some]
    | false =>
      rw [if_neg (by simp), next_eq_none.mpr hv]
      rfl

theorem walk_noalloc (hva : va < maxVa) (root : Word) (st : State) :
    walk root va false st = .ok ((node st.mem root (vpath va)).map fun t => (t, px 0 va), st) := by
  unfold walk
  rw [if_neg (by bv_omega), walkLevel_noalloc]
  rfl

theorem lt_of_walk {alloc : Bool} {r : Option (Word × Fin 512)}
    (h : walk root va alloc st = .ok (r, st')) : va < maxVa := by
  by_contra hc
  unfold walk at h
  rw [if_pos (by bv_omega)] at h
  cases h

/-- The loop of a search that allocates, from the page-table page at the end of a path down. -/
theorem walkLevel_spec (va : Word) (level : Nat) {q : List (Fin 512)} {st : State}
    {r : Option (Word × Fin 512)} (hq : q.length + level = 2) (ht : node st.mem root q = some t)
    (htree : Tree st.mem root) (hfresh : Fresh st.mem root st.pages)
    (hrun : walkLevel va true level t st = .ok (r, st')) :
    Searched root st st' ∧
      ∀ t' i, r = some (t', i) → node st'.mem root (q ++ vrest va level) = some t' ∧
      i = px 0 va := by
  induction level generalizing q t st with
  | zero =>
    cases hrun
    refine ⟨Searched.refl htree hfresh, fun t' i heq => ?_⟩
    cases heq
    exact ⟨by simpa [vrest] using ht, rfl⟩
  | succ level ih =>
    have hpath : q ++ vrest va (level + 1) = (q ++ [px (level + 1) va]) ++ vrest va level := by
      rw [vrest_succ, List.append_assoc, List.singleton_append]
    rw [walkLevel, Halting.bind_of_ok (readPte_apply _ _ _)] at hrun
    by_cases hv : valid (st.mem t (px (level + 1) va)) = true
    · -- the entry leads to the next page
      rw [if_pos hv] at hrun
      have hnode : node st.mem root (q ++ [px (level + 1) va]) =
        some (pte2pa (st.mem t (px (level + 1) va))) := by
        unfold node at ht ⊢
        rw [Radix.node_concat, ht]
        exact next_eq_some.mpr ⟨hv, rfl⟩
      rw [hpath]
      exact ih (by rw [List.length_append, List.length_singleton]; omega) hnode htree hfresh hrun
    · rw [if_neg hv, if_neg (by simp)] at hrun
      obtain ⟨f, st₁, hkalloc, hrun⟩ := Halting.bind_eq_ok.mp hrun
      rcases kalloc_cases hfresh hkalloc with ⟨rfl, hmem, hrest, hkend⟩ | ⟨hf, hin, hmem,
        hrest, hnot, hkend⟩
      · -- there is no memory
        rw [if_pos rfl] at hrun
        cases hrun
        refine ⟨⟨?_, ?_, ?_, ?_, hkend⟩, nofun⟩
        all_goals rw [hmem]
        · exact htree
        · exact hrest
        · exact fun _ _ _ h => h
        · exact fun _ => rfl
      · rw [if_neg hf] at hrun
        have hfill := htree.fill (i := px (level + 1) va) (by omega) ht (by simpa using hv)
          (hfresh.aligned f hin) (hfresh.new f hin hf)
        obtain ⟨_, st₂, hset, hrun⟩ := Halting.bind_eq_ok.mp hrun
        cases hset
        obtain ⟨_, st₃, hwrite, hrun⟩ := Halting.bind_eq_ok.mp hrun
        cases hwrite
        dsimp only at hrun
        rw [hmem, Function.update_idem] at hrun
        have hkeep : ∀ p g, p.length ≤ 2 → node st.mem root p = some g → node (Radix.setEntry
            (Function.update st.mem f fun _ => 0) t (px (level + 1) va) (pa2pte f ||| pteV)) root
            p = some g := by
          intro p g hp hg
          rw [hfill.node p hp, if_neg, hg]
          rintro rfl
          unfold node at ht hg
          rw [Radix.node_concat, ht] at hg
          exact hv (next_eq_some.mp hg).1
        let st₂ : State := ⟨Radix.setEntry (Function.update st.mem f fun _ => 0) t (px (level + 1) va)
          (pa2pte f ||| pteV), st₁.kend, st₁.pages⟩
        have hsearched : Searched root st st₂ := by
          refine ⟨hfill.tree, ⟨hrest.nodup, hrest.aligned, fun g hg hg0 => ?_⟩, hkeep,
            hfill.lookup, hkend⟩
          rintro ⟨p, hp, hpg⟩
          rw [hfill.node p hp] at hpg
          split at hpg
          · cases hpg
            exact hnot hg
          · exact hrest.new g hg hg0 ⟨p, hp, hpg⟩
        have hlen : (q ++ [px (level + 1) va]).length + level = 2 := by
          rw [List.length_append, List.length_singleton]
          omega
        have hchild : node st₂.mem root (q ++ [px (level + 1) va]) = some f := by
          rw [hfill.node _ (by omega), if_pos rfl]
        obtain ⟨hlow, hret⟩ := ih hlen hchild hsearched.tree hsearched.fresh hrun
        rw [hpath]
        exact ⟨hsearched.trans hlow, hret⟩

/-- **A search that allocates changes no entry**, whether it succeeds or fails. -/
theorem walk_spec {r : Option (Word × Fin 512)} (htree : Tree st.mem root)
    (hfresh : Fresh st.mem root st.pages) (hrun : walk root va true st = .ok (r, st')) :
    Searched root st st' ∧ ∀ t i, r = some (t, i) → node st'.mem root (vpath va) = some t ∧
    i = px 0 va := by
  have hva := lt_of_walk hrun
  unfold walk at hrun
  rw [if_neg (by bv_omega)] at hrun
  exact walkLevel_spec va 2 (q := []) rfl rfl htree hfresh hrun

/-- An address is in one of the `n` pages from that of `a` on. -/
def InPages (a : Word) (n : Nat) (x : Word) : Prop := ∃ k < n, x.toNat / 4096 = a.toNat / 4096 + k

theorem not_inPages_zero (a x : Word) : ¬ InPages a 0 x := by
  rintro ⟨k, hk, -⟩
  exact absurd hk (Nat.not_lt_zero k)

theorem page_succ {a : Word} (ha : a < maxVa) : (a + pgSize).toNat / 4096 = a.toNat / 4096 + 1 := by
  have hlow : a.toNat < 2 ^ 38 := ha
  rw [BitVec.toNat_add]
  show (a.toNat + 4096) % 2 ^ 64 / 4096 = _
  omega

theorem inPages_succ {a x : Word} {n : Nat} (ha : a < maxVa) :
    InPages a (n + 1) x ↔ x.toNat / 4096 = a.toNat / 4096 ∨ InPages (a + pgSize) n x := by
  unfold InPages
  rw [page_succ ha]
  constructor
  · rintro ⟨k, hk, hx⟩
    cases k with
    | zero => exact Or.inl hx
    | succ k => exact Or.inr ⟨k, by omega, by omega⟩
  · rintro (hx | ⟨k, hk, hx⟩)
    · exact ⟨0, Nat.succ_pos n, hx⟩
    · exact ⟨k + 1, by omega, by omega⟩

theorem aligned_succ {a : Word} (ha : Aligned a) : Aligned (a + pgSize) := by
  unfold Aligned at *
  rw [BitVec.toNat_add]
  show (a.toNat + 4096) % 2 ^ 64 % 4096 = 0
  omega

/-- The `k`-th page from `pa` on. -/
def pageAt (pa : Word) (k : Nat) : Word := pa + BitVec.ofNat 64 (4096 * k)

theorem pageAt_zero (pa : Word) : pageAt pa 0 = pa := BitVec.add_zero pa

theorem pageAt_succ (pa : Word) (k : Nat) : pageAt (pa + pgSize) k = pageAt pa (k + 1) := by
  have hpg : pgSize = BitVec.ofNat 64 4096 := rfl
  rw [pageAt, pageAt, BitVec.add_assoc, hpg, ← BitVec.ofNat_add, Nat.mul_add, Nat.mul_one,
    Nat.add_comm]

/-- What `mappages` does to the map. -/
structure Entered (root : Word) (st : State) (a : Word) (n : Nat) (pa perm : Word) (r : Int)
    (st' : State) : Prop where
  tree : Tree st'.mem root
  other : ∀ x < maxVa, ¬ InPages a n x → lookup st'.mem root x = lookup st.mem root x
  entered : r = 0 → ∀ x < maxVa, ∀ k < n, x.toNat / 4096 = a.toNat / 4096 + k →
    lookup st'.mem root x = some (leafPte (pageAt pa k) perm)

theorem mappagesLoop_spec {perm : Word} (n : Nat) {a pa : Word} {r : Int} (htree : Tree st.mem root)
    (hfresh : Fresh st.mem root st.pages) (hrun : mappagesLoop root perm n a pa st = .ok (r, st')) :
    Entered root st a n pa perm r st' := by
  induction n generalizing a pa st with
  | zero =>
    cases hrun
    exact ⟨htree, fun _ _ _ => rfl, fun _ _ _ k hk => absurd hk (Nat.not_lt_zero k)⟩
  | succ n ih =>
    unfold mappagesLoop at hrun
    obtain ⟨found, st₁, hwalk, hrun⟩ := Halting.bind_eq_ok.mp hrun
    have ha := lt_of_walk hwalk
    obtain ⟨hsearched, hret⟩ := walk_spec htree hfresh hwalk
    cases found with
    | none =>
      -- there is no memory for a page-table page
      cases hrun
      refine ⟨hsearched.tree, fun x _ _ => hsearched.lookup x, fun hzero => ?_⟩
      cases hzero
    | some place =>
      obtain ⟨t, i⟩ := place
      obtain ⟨ht, rfl⟩ := hret t i rfl
      dsimp only at hrun
      rw [Halting.bind_of_ok (readPte_apply _ _ _)] at hrun
      by_cases hv : valid (st₁.mem t (px 0 a)) = true
      · rw [if_pos hv] at hrun
        cases hrun
      · rw [if_neg hv] at hrun
        let st₂ : State := { st₁ with mem := Radix.setEntry st₁.mem t (px 0 a) (leafPte pa perm) }
        have htree₂ : Tree st₂.mem root := hsearched.tree.setLeaf (length_vpath a) ht
        have hfresh₂ : Fresh st₂.mem root st₂.pages := by
          refine ⟨hsearched.fresh.nodup, hsearched.fresh.aligned, fun g hg hg0 => ?_⟩
          rintro ⟨p, hp, hpg⟩
          rw [node_setLeaf hsearched.tree (length_vpath a) ht hp] at hpg
          exact hsearched.fresh.new g hg hg0 ⟨p, hp, hpg⟩
        have hrest := ih htree₂ hfresh₂ hrun
        refine ⟨hrest.tree, fun x hx hnot => ?_, fun hr x hx k hk hpage => ?_⟩
        · rw [inPages_succ ha, not_or] at hnot
          rw [hrest.other x hx hnot.2, lookup_setLeaf_of_ne hsearched.tree ht ha hx hnot.1]
          exact hsearched.lookup x
        · cases k with
          | zero =>
            -- the pages behind the first one leave it as it is
            have hnot : ¬ InPages (a + pgSize) n x := by
              rintro ⟨l, -, hl⟩
              rw [page_succ ha] at hl
              omega
            rw [hrest.other x hx hnot, lookup_of_page (hpage : _ = a.toNat / 4096), pageAt_zero,
              lookup_setLeaf_self hsearched.tree ht, valid_leafPte, if_pos rfl]
          | succ k =>
            rw [← pageAt_succ]
            apply hrest.entered hr x hx k (by omega)
            rw [page_succ ha]
            omega

/-- **`mappages` enters the pages of the range**, and no others. -/
theorem mappages_spec {va size pa perm : Word} {r : Int} (htree : Tree st.mem root)
    (hfresh : Fresh st.mem root st.pages) (hrun : mappages root va size pa perm st = .ok (r, st')) :
    Entered root st va (size.toNat / 4096) pa perm r st' := by
  unfold mappages at hrun
  split at hrun
  · cases hrun
  · split at hrun
    · cases hrun
    · split at hrun
      · cases hrun
      · exact mappagesLoop_spec _ htree hfresh hrun

/-- The memory behind the pages is not that of page-table pages. -/
def LeavesApart (mem : Memory) (root a : Word) (n : Nat) : Prop :=
  ∀ x < maxVa, InPages a n x → ∀ e, lookup mem root x = some e → ¬ IsTable mem root (pte2pa e)

/-- What `uvmunmap` does to the map. -/
structure Removed (root : Word) (st : State) (a : Word) (n : Nat) (st' : State) : Prop where
  tree : Tree st'.mem root
  other : ∀ x < maxVa, ¬ InPages a n x → lookup st'.mem root x = lookup st.mem root x
  removed : ∀ x < maxVa, InPages a n x → lookup st'.mem root x = none

/-- The loop goes on behind the first page, which looks up to nothing. -/
theorem Removed.step {st₁ : State} {a : Word} {n : Nat} (ha : a < maxVa)
    (hfirst : ∀ x < maxVa, x.toNat / 4096 = a.toNat / 4096 → lookup st₁.mem root x = none)
    (hother : ∀ x < maxVa, x.toNat / 4096 ≠ a.toNat / 4096 →
      lookup st₁.mem root x = lookup st.mem root x)
    (hrest : Removed root st₁ (a + pgSize) n st') : Removed root st a (n + 1) st' := by
  refine ⟨hrest.tree, fun x hx hnot => ?_, fun x hx hin => ?_⟩
  · rw [inPages_succ ha, not_or] at hnot
    rw [hrest.other x hx hnot.2, hother x hx hnot.1]
  · by_cases hbehind : InPages (a + pgSize) n x
    · exact hrest.removed x hx hbehind
    · rw [hrest.other x hx hbehind]
      exact hfirst x hx (((inPages_succ ha).mp hin).resolve_right hbehind)

/-- A page without an entry is skipped. -/
theorem Removed.skip {a : Word} {n : Nat} (ha : a < maxVa) (hnone : lookup st.mem root a = none)
    (hrest : Removed root st (a + pgSize) n st') : Removed root st a (n + 1) st' :=
  hrest.step ha (fun _ _ hpage => (lookup_of_page hpage).trans hnone) fun _ _ _ => rfl

/-- The entry of a page is cleared, when the tree is that of the state before. -/
theorem Removed.clear {mem₁ : Memory} {a : Word} {n : Nat} (htree : Tree st.mem root)
    (ha : a < maxVa)
    (ht : node st.mem root (vpath a) = some t)
    (hsame : ∀ f, IsTable st.mem root f → mem₁ f = st.mem f)
    (hrest : Removed root { st with mem := Radix.setEntry mem₁ t (px 0 a) 0 } (a + pgSize) n st') :
    Removed root st a (n + 1) st' := by
  have htree₁ := htree.congr hsame
  have ht₁ : node mem₁ root (vpath a) = some t := by
    rw [node_congr hsame (length_vpath a).le]
    exact ht
  refine hrest.step ha (fun x hx hpage => ?_) fun x hx hne => ?_
  · rw [lookup_of_page hpage]
    show lookup (Radix.setEntry mem₁ t (px 0 a) 0) root a = none
    rw [lookup_setLeaf_self htree₁ ht₁, valid_zero]
    rfl
  · exact (lookup_setLeaf_of_ne htree₁ ht₁ ha hx hne).trans (lookup_congr hsame x)

theorem kfree_cases {pa : Word} (h : kfree pa st = .ok ((), st')) :
    st' = { st with mem := Function.update st.mem pa fun _ => 0x0101010101010101 } := by
  unfold kfree at h
  rw [Halting.bind_of_ok (Halting.get_apply st)] at h
  split at h
  · cases h
  · cases h
    rfl

theorem uvmunmapLoop_spec {doFree : Bool} (n : Nat) {a : Word} (htree : Tree st.mem root)
    (hapart : doFree = true → LeavesApart st.mem root a n)
    (hrun : uvmunmapLoop root doFree n a st = .ok ((), st')) : Removed root st a n st' := by
  induction n generalizing a st with
  | zero =>
    cases hrun
    exact ⟨htree, fun _ _ _ => rfl, fun _ _ hin => absurd hin (not_inPages_zero _ _)⟩
  | succ n ih =>
    unfold uvmunmapLoop at hrun
    obtain ⟨found, st₁, hwalk, hrun⟩ := Halting.bind_eq_ok.mp hrun
    have ha := lt_of_walk hwalk
    rw [walk_noalloc ha] at hwalk
    cases hwalk
    have hbehind : doFree = true → LeavesApart st.mem root (a + pgSize) n :=
      fun hfree x hx hin => hapart hfree x hx ((inPages_succ ha).mpr (Or.inr hin))
    cases ht : node st.mem root (vpath a) with
    | none =>
      rw [ht] at hrun
      refine Removed.skip ha ?_ (ih htree hbehind hrun)
      unfold lookup
      rw [ht]
      rfl
    | some t =>
      rw [ht] at hrun
      dsimp only [Option.map_some] at hrun
      rw [Halting.bind_of_ok (readPte_apply _ _ _)] at hrun
      by_cases hv : valid (st.mem t (px 0 a)) = true
      · have hat : lookup st.mem root a = some (st.mem t (px 0 a)) := by
          unfold lookup
          rw [ht, Option.bind_some, if_pos hv]
        rw [if_neg (by simp [hv])] at hrun
        -- clearing the entry leaves the other entries, and the tree
        have hgoOn : ∀ mem₁ : Memory, (∀ f, IsTable st.mem root f → mem₁ f = st.mem f) →
            uvmunmapLoop root doFree n (a + pgSize)
              { st with mem := Radix.setEntry mem₁ t (px 0 a) 0 } = .ok ((), st') →
            Removed root st a (n + 1) st' := by
          intro mem₁ hsame hrest
          have htree₁ := htree.congr hsame
          have ht₁ : node mem₁ root (vpath a) = some t := by
            rw [node_congr hsame (length_vpath a).le]
            exact ht
          refine Removed.clear htree ha ht hsame
            (ih (htree₁.setLeaf (length_vpath a) ht₁) (fun hfree x hx hin e he => ?_) hrest)
          have hne : x.toNat / 4096 ≠ a.toNat / 4096 := by
            obtain ⟨k, -, hk⟩ := hin
            rw [page_succ ha] at hk
            omega
          have hbefore : lookup st.mem root x = some e := by
            rw [← lookup_congr hsame x, ← lookup_setLeaf_of_ne htree₁ ht₁ ha hx hne]
            exact he
          rintro ⟨p, hp, hpf⟩
          rw [node_setLeaf htree₁ (length_vpath a) ht₁ hp, node_congr hsame hp] at hpf
          exact hbehind hfree x hx hin e hbefore ⟨p, hp, hpf⟩
        cases hfree : doFree with
        | false =>
          rw [hfree] at hrun hgoOn
          exact hgoOn st.mem (fun _ _ => rfl) hrun
        | true =>
          rw [hfree] at hrun hgoOn
          rw [if_pos rfl] at hrun
          obtain ⟨_, st₁, hkfree, hrun⟩ := Halting.bind_eq_ok.mp hrun
          obtain rfl := kfree_cases hkfree
          refine hgoOn _ (fun f hf => ?_) hrun
          apply Function.update_of_ne
          rintro rfl
          exact hapart hfree a ha ⟨0, Nat.succ_pos n, rfl⟩ _ hat hf
      · rw [if_pos (by simpa using hv)] at hrun
        refine Removed.skip ha ?_ (ih htree hbehind hrun)
        unfold lookup
        rw [ht, Option.bind_some, if_neg hv]

/-- **`uvmunmap` removes the pages of the range**, and no others. -/
theorem uvmunmap_spec {va npages : Word} {doFree : Bool} (htree : Tree st.mem root)
    (hapart : doFree = true → LeavesApart st.mem root va (pagesBefore va npages))
    (hrun : uvmunmap root va npages doFree st = .ok ((), st')) :
    Removed root st va (pagesBefore va npages) st' := by
  unfold uvmunmap at hrun
  split at hrun
  · cases hrun
  · exact uvmunmapLoop_spec _ htree hapart hrun

/-- A range that does not wrap has the pages that are asked for. -/
theorem pagesBefore_eq {va npages : Word} (h : va.toNat + npages.toNat * 4096 < 2 ^ 64) :
    pagesBefore va npages = npages.toNat := by
  unfold pagesBefore
  have hmul : (npages * pgSize).toNat = npages.toNat * 4096 := by
    rw [BitVec.toNat_mul]
    show npages.toNat * 4096 % 2 ^ 64 = _
    omega
  rw [BitVec.toNat_add, hmul]
  omega

end Calls

/-! ## Every run -/

/-- The calls, with what `kalloc` returns during the call. -/
inductive Op
  | walk (va : Word) (pages : List Word)
  | mappages (va size pa perm : Word) (pages : List Word)
  | uvmunmap (va npages : Word) (doFree : Bool)

/-- `kalloc` returns pages that are not in use, `mappages` is asked for the flags of a page, and
`uvmunmap` frees no page-table page. -/
def Op.Allowed (root : Word) (mem : Memory) : Op → Prop
  | .walk _ pages => Fresh mem root pages
  | .mappages _ _ pa perm pages => Fresh mem root pages ∧ Aligned pa ∧ perm < 1024
  | .uvmunmap va npages doFree => doFree = true → LeavesApart mem root va (pagesBefore va npages)

/-- Run a call. -/
def Op.exec (root : Word) : Op → VM Unit
  | .walk va pages => do
    modify fun st => { st with pages := pages }
    let _ ← Sv39.walk root va true
  | .mappages va size pa perm pages => do
    modify fun st => { st with pages := pages }
    let _ ← Sv39.mappages root va size pa perm
  | .uvmunmap va npages doFree => Sv39.uvmunmap root va npages doFree

/-- A call that returns. -/
def Step (root : Word) (st : State) (op : Op) (st' : State) : Prop :=
  op.Allowed root st.mem ∧ op.exec root st = .ok ((), st')

/-- **The page table is a finite map** from the pages below `MAXVA` to entries: what each function
returns, and what it does to the entries of the pages. -/
structure FiniteMap (root : Word) (st : State) : Prop where
  tree : Tree st.mem root
  walk : ∀ va r st', Fresh st.mem root st.pages → Sv39.walk root va true st = .ok (r, st') →
    Tree st'.mem root ∧ (∀ x, lookup st'.mem root x = lookup st.mem root x) ∧
      ∀ t i, r = some (t, i) →
        lookup st'.mem root va = if valid (st'.mem t i) then some (st'.mem t i) else none
  mappages : ∀ va size pa perm r st', Fresh st.mem root st.pages → Aligned pa → perm < 1024 →
    Sv39.mappages root va size pa perm st = .ok (r, st') →
      Tree st'.mem root ∧
      (∀ x < maxVa, ¬ InPages va (size.toNat / 4096) x →
       lookup st'.mem root x = lookup st.mem root x) ∧
      (r = 0 → ∀ x < maxVa, ∀ k < size.toNat / 4096, x.toNat / 4096 = va.toNat / 4096 + k →
        ∃ e, lookup st'.mem root x = some e ∧ pte2pa e = pageAt pa k ∧ pteFlags e = perm ||| pteV)
  uvmunmap : ∀ va npages doFree st',
    (doFree = true → LeavesApart st.mem root va (pagesBefore va npages)) →
    Sv39.uvmunmap root va npages doFree st = .ok ((), st') →
      Tree st'.mem root ∧
      (∀ x < maxVa, ¬ InPages va (pagesBefore va npages) x →
        lookup st'.mem root x = lookup st.mem root x) ∧
      (∀ x < maxVa, InPages va (pagesBefore va npages) x → lookup st'.mem root x = none) ∧
      (va.toNat + npages.toNat * 4096 < 2 ^ 64 → pagesBefore va npages = npages.toNat)

theorem aligned_pageAt {pa : Word} (h : Aligned pa) (k : Nat) : Aligned (pageAt pa k) := by
  induction k generalizing pa with
  | zero =>
    rw [pageAt_zero]
    exact h
  | succ k ih =>
    rw [← pageAt_succ]
    exact ih (aligned_succ h)

theorem Tree.finiteMap {root : Word} {st : State} (h : Tree st.mem root) : FiniteMap root st where
  tree := h
  walk va r st' hfresh hrun := by
    obtain ⟨hsearched, hret⟩ := walk_spec h hfresh hrun
    refine ⟨hsearched.tree, hsearched.lookup, fun t i heq => ?_⟩
    obtain ⟨ht, rfl⟩ := hret t i heq
    unfold lookup
    rw [ht]
    rfl
  mappages va size pa perm r st' hfresh hpa hperm hrun := by
    have hspec := mappages_spec h hfresh hrun
    refine ⟨hspec.tree, hspec.other, fun hr x hx k hk hpage => ?_⟩
    exact ⟨_, hspec.entered hr x hx k hk hpage, pte2pa_leafPte (aligned_pageAt hpa k) hperm,
      pteFlags_leafPte hperm⟩
  uvmunmap va npages doFree st' hapart hrun := by
    have hspec := uvmunmap_spec h hapart hrun
    exact ⟨hspec.tree, hspec.other, hspec.removed, pagesBefore_eq⟩

/-- **The page table is a finite map**, whatever calls have been made. -/
theorem finite_map {root : Word} {st₀ st : State} {ops : List Op} (htree : Tree st₀.mem root)
    (hrun : Run (Step root) st₀ ops st) : FiniteMap root st := by
  apply Tree.finiteMap
  apply Run.invariant (I := fun st => Tree st.mem root) _ hrun htree
  rintro st op st' h ⟨hallowed, hexec⟩
  cases op with
  | walk va pages =>
    obtain ⟨r, st₁, hwalk, heq⟩ := Halting.bind_eq_ok.mp hexec
    cases hwalk
    obtain ⟨r, st₁, hwalk, heq⟩ := Halting.bind_eq_ok.mp heq
    cases heq
    have htree' : Tree { st with pages := pages }.mem root := h
    exact (walk_spec htree' hallowed hwalk).1.tree
  | mappages va size pa perm pages =>
    obtain ⟨r, st₁, hmap, heq⟩ := Halting.bind_eq_ok.mp hexec
    cases hmap
    obtain ⟨r, st₁, hmap, heq⟩ := Halting.bind_eq_ok.mp heq
    cases heq
    have htree' : Tree { st with pages := pages }.mem root := h
    exact (mappages_spec htree' hallowed.1 hmap).tree
  | uvmunmap va npages doFree => exact (uvmunmap_spec h hallowed hexec).tree

/-! ### A run -/

/-- The root of a page table, with two pages that can be allocated. -/
def emptyRoot : Word := 0x80001000

/-- An empty page table. -/
def emptyTable : State where
  mem _ _ := 0
  kend := 0x80001000
  pages := []

theorem node_emptyTable {p : List (Fin 512)} {f : Word}
    (h : node emptyTable.mem emptyRoot p = some f) : p = [] ∧ f = emptyRoot := by
  cases p with
  | nil =>
    cases h
    exact ⟨rfl, rfl⟩
  | cons i p =>
    have hnone : next (emptyTable.mem emptyRoot i) = none := next_eq_none.mpr valid_zero
    rw [node, Radix.node_cons, hnone] at h
    cases h

theorem tree_emptyTable : Tree emptyTable.mem emptyRoot := by
  intro p q f hp hq hpf hqf
  rw [(node_emptyTable hpf).1, (node_emptyTable hqf).1]

theorem fresh_emptyTable : Fresh emptyTable.mem emptyRoot [0x80002000, 0x80003000] where
  nodup := by decide
  aligned f hf := by
    simp only [List.mem_cons, List.not_mem_nil, or_false] at hf
    rcases hf with rfl | rfl <;> rfl
  new f hf hne := by
    rintro ⟨p, hp, hnode⟩
    obtain ⟨-, rfl⟩ := node_emptyTable hnode
    simp [emptyRoot] at hf

/-- Two pages are entered, and the first of them is removed. -/
def mapAndUnmap : List Op :=
  [.mappages 0x1000 0x2000 0x80010000 6 [0x80002000, 0x80003000], .uvmunmap 0x1000 1 false]

set_option maxRecDepth 100000 in
/-- The search for the first page finds nothing afterwards, the one for the second page finds its
entry. -/
theorem finite_map_unmapped : ∃ st, Run (Step emptyRoot) emptyTable mapAndUnmap st ∧
    lookup st.mem emptyRoot 0x1000 = none ∧ lookup st.mem emptyRoot 0x2000 = some 0x20004407 ∧
    FiniteMap emptyRoot st := by
  have hmap : Halting.passes ((Op.mappages 0x1000 0x2000 0x80010000 6 [0x80002000, 0x80003000]).exec
      emptyRoot emptyTable) (fun _ st₁ => Halting.passes ((Op.uvmunmap 0x1000 1 false).exec
        emptyRoot st₁) fun _ st => decide (lookup st.mem emptyRoot 0x1000 = none) &&
          decide (lookup st.mem emptyRoot 0x2000 = some 0x20004407)) = true := by
    decide +kernel
  obtain ⟨_, st₁, h₁, hunmap⟩ := Halting.passes_eq_true.mp hmap
  obtain ⟨_, st, h₂, hlook⟩ := Halting.passes_eq_true.mp hunmap
  rw [Bool.and_eq_true, decide_eq_true_eq, decide_eq_true_eq] at hlook
  have hrun : Run (Step emptyRoot) emptyTable mapAndUnmap st :=
    .snoc (.snoc (.nil emptyTable) ⟨And.intro fresh_emptyTable ⟨rfl, by decide⟩, h₁⟩)
      ⟨fun hfree => (nomatch hfree), h₂⟩
  exact ⟨st, hrun, hlook.1, hlook.2, finite_map tree_emptyTable hrun⟩

end Xv6.Sv39
