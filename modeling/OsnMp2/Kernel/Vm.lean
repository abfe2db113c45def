import OsnMp2.Kernel.Memory

/-!
# Page tables

The functions of `vm.c` that build, search and free the three-level page tables of Sv39, on
page-table pages that live in physical memory.

A pointer to a page-table entry is the frame of its page-table page and the index in it. The C
loops over levels, pages and entries are recursions on the level, the number of pages left and
the list of indices left.

## Main definitions

* `walk`, `walkaddr`, `mappages`, `uvmunmap`: the entry of an address, and setting and clearing it
* `uvmcreate`, `uvmdealloc`, `freewalk`, `uvmfree`, `uvmcopy`: whole address spaces
-/

namespace Xv6

/-- The entry `i` of the page-table page `f`. -/
def readPte (f : Frame) (i : Fin 512) : VM Pte := fun m => .ok ((m.phys f).pte i, m)

/-- `pagetable[i] = e`. -/
def writePte (f : Frame) (i : Fin 512) (e : Pte) : VM Unit := modify fun m => m.setPte f i e

/-- The loop of `walk`, from the page-table page `pagetable` of the given level down. -/
def walkLevel (va : Nat) (alloc : Bool) : Nat → Frame → VM (Option (Frame × Fin 512))
  | 0, pagetable => pure (some (pagetable, px 0 va))
  | level + 1, pagetable => do
    let pte ← readPte pagetable (px (level + 1) va)
    -- A valid entry above the last level is taken for a pointer; its permissions are not read.
    if pte.v then
      walkLevel va alloc level pte.ppn
    else if alloc then
      match ← kalloc with
      -- Page-table pages that were created on the way down stay.
      | none => pure none
      | some f => do
        memset f 0
        writePte pagetable (px (level + 1) va) ⟨true, {}, f⟩
        walkLevel va alloc level f
    else pure none

/-- `walk`: the address of the entry of `va`, page-table pages being created when `alloc`. -/
def walk (pagetable : Frame) (va : Nat) (alloc : Bool) : VM (Option (Frame × Fin 512)) :=
  if maxVa ≤ va then Halting.halt (.panic .walk)
  else walkLevel va alloc 2 pagetable

/-- `walkaddr`: the frame a user page is mapped to. -/
def walkaddr (pagetable : Frame) (va : Nat) : VM (Option Frame) :=
  if maxVa ≤ va then pure none
  else do
    match ← walk pagetable va false with
    | none => pure none
    | some (f, i) => do
      let pte ← readPte f i
      if !pte.v then pure none
      -- Trampoline and trap frame are mapped, but not for the user.
      else if !pte.perm.u then pure none
      else pure (some pte.ppn)

/-- The loop of `mappages` over the pages left. -/
def mappagesLoop (pagetable : Frame) (perm : Perm) : Nat → Nat → Frame → VM Int
  | 0, _, _ => pure 0
  | n + 1, a, pa => do
    match ← walk pagetable a true with
    -- The entries that were set before are left in place.
    | none => pure (-1)
    | some (f, i) => do
      let pte ← readPte f i
      if pte.v then Halting.halt (.panic .remap)
      else do
        writePte f i ⟨true, perm, pa⟩
        mappagesLoop pagetable perm n (a + pgSize) (pa + 1)

/-- `mappages`: entries for the pages of `[va, va + size)`, at the frames from `pa` on. -/
def mappages (pagetable : Frame) (va size : Nat) (pa : Frame) (perm : Perm) : VM Int :=
  if va % pgSize ≠ 0 then Halting.halt (.panic .mappagesVa)
  else if size % pgSize ≠ 0 then Halting.halt (.panic .mappagesSize)
  else if size = 0 then Halting.halt (.panic .mappagesZero)
  else mappagesLoop pagetable perm (size / pgSize) va pa

/-- `uvmcreate`: an empty page table. -/
def uvmcreate : VM (Option Frame) := do
  match ← kalloc with
  | none => pure none
  | some pagetable => do
    memset pagetable 0
    pure (some pagetable)

/-- The loop of `uvmunmap` over the pages left. -/
def uvmunmapLoop (pagetable : Frame) (doFree : Bool) : Nat → Nat → VM Unit
  | 0, _ => pure ()
  | n + 1, a => do
    match ← walk pagetable a false with
    -- Pages that were never faulted in have no entry, which is no error here.
    | none => uvmunmapLoop pagetable doFree n (a + pgSize)
    | some (f, i) => do
      let pte ← readPte f i
      if !pte.v then uvmunmapLoop pagetable doFree n (a + pgSize)
      else do
        if doFree then kfree pte.ppn else pure ()
        writePte f i Pte.zero
        uvmunmapLoop pagetable doFree n (a + pgSize)

/-- `uvmunmap`: remove `npages` mappings from `va` on; missing ones are skipped. -/
def uvmunmap (pagetable : Frame) (va npages : Nat) (doFree : Bool) : VM Unit :=
  if va % pgSize ≠ 0 then Halting.halt (.panic .uvmunmap)
  else uvmunmapLoop pagetable doFree npages va

/-- `uvmdealloc`: shrink the user memory from `oldsz` to `newsz`. -/
def uvmdealloc (pagetable : Frame) (oldsz newsz : Nat) : VM Nat :=
  if oldsz ≤ newsz then pure oldsz
  else do
    -- A page that the new size ends in stays mapped.
    if pgRoundUp newsz < pgRoundUp oldsz then
      uvmunmap pagetable (pgRoundUp newsz) ((pgRoundUp oldsz - pgRoundUp newsz) / pgSize) true
    else pure ()
    pure newsz

/-- The loop of `freewalk` over the entries left: a valid entry without `PTE_R`, `PTE_W` and
`PTE_X` points to a page-table page, which `freeChild` frees; a leaf is left alone. -/
def freewalkLoop (freeChild : Frame → VM Unit) (pagetable : Frame) : List (Fin 512) → VM Unit
  | [] => pure ()
  | i :: rest => do
    let pte ← readPte pagetable i
    if pte.v && !pte.perm.r && !pte.perm.w && !pte.perm.x then do
      freeChild pte.ppn
      writePte pagetable i Pte.zero
      freewalkLoop freeChild pagetable rest
    else freewalkLoop freeChild pagetable rest

/-- `freewalk`: free the page-table pages below `pagetable` and `pagetable` itself. The first
argument bounds the depth of the recursion; a page table has three levels. -/
def freewalk : Nat → Frame → VM Unit
  | 0, _ => Halting.halt (.panic .kstack)
  | depth + 1, pagetable => do
    freewalkLoop (freewalk depth) pagetable (List.finRange 512)
    kfree pagetable

/-- `uvmfree`: free the user pages below `sz`, then the page-table pages. -/
def uvmfree (pagetable : Frame) (sz : Nat) : VM Unit := do
  -- What is mapped from `sz` on is not freed, and `freewalk` skips it.
  if 0 < sz then uvmunmap pagetable 0 (pgRoundUp sz / pgSize) true else pure ()
  freewalk 3 pagetable

/-- The loop of `uvmcopy` over the pages left, from address `i` on. -/
def uvmcopyLoop (old new : Frame) : Nat → Nat → VM Int
  | 0, _ => pure 0
  | n + 1, i => do
    match ← walk old i false with
    -- Only pages that are mapped are copied: not those in the swap area or still in the file.
    | none => uvmcopyLoop old new n (i + pgSize)
    | some (f, k) => do
      let pte ← readPte f k
      if !pte.v then uvmcopyLoop old new n (i + pgSize)
      else do
        match ← kalloc with
        | none => do
          -- The pages before `i` have been copied; those that were skipped are skipped again.
          uvmunmap new 0 (i / pgSize) true
          pure (-1)
        | some mem => do
          let m ← get
          memmovePage mem (m.phys pte.ppn).byte
          if (← mappages new i pgSize mem pte.perm) ≠ 0 then do
            kfree mem
            uvmunmap new 0 (i / pgSize) true
            pure (-1)
          else uvmcopyLoop old new n (i + pgSize)

/-- `uvmcopy`: copy the mapped pages below `sz` of the page table `old` to `new`. -/
def uvmcopy (old new : Frame) (sz : Nat) : VM Int :=
  uvmcopyLoop old new ((sz + (pgSize - 1)) / pgSize) 0

end Xv6
