import OsnMp2.Kernel.Vm
import OsnMp2.Kernel.Fs
import OsnMp2.Kernel.Proc

/-!
# Demand paging

The fault handler `demand_page_load_new` of `vm.c` with the resident list, the swap array and the
replacement policy it uses, the kernel copy functions that call it, and `growproc`.

The lines that `demand_page_load_new` prints are left out. Its body is cut where the source has
its section comments: an already mapped page, the validity check, getting a frame (with eviction),
loading the content, mapping.

## Main definitions

* `lazySegFind`, `addResidentPage`, `removeResidentPage`, `findVictimPage`, `findFreeSwapSlot`,
  `swapOutPage`, `swapInPage`: the metadata operations
* `demandPageLoadNew`: the fault handler
* `copyin`, `copyinstr`, `copyout`: kernel copies from and to user memory
* `growproc`: `sbrk`
* `userLoad`, `userStore`: what the hardware does for an access that does not fault
-/

namespace Xv6

/-- `MAX_RESIDENT_PAGES`. -/
abbrev maxResidentPages : Nat := 40

/-- `USERSTACK`: user stack pages. -/
abbrev userStack : Nat := 1

/-! ## Segments, resident pages and swap -/

/-- `flags2perm`. -/
def flags2perm (flags : Nat) : Perm := { x := flags.testBit 0, w := flags.testBit 1 }

/-- `lazy_seg_find`: the first recorded segment that contains `va`. -/
def lazySegFind (p : Proc) (va : Nat) : Option (Fin 16) :=
  (List.finRange 16).find? fun i =>
    i.val < p.lazyNseg && (p.lazySegs i).vaddr ≤ va &&
      va < u64 ((p.lazySegs i).vaddr + (p.lazySegs i).memsz)

/-- `add_resident_page`. -/
def addResidentPage (va : Nat) (isDirty : Bool) : TM Unit := do
  setProc fun p => { p with pfSeq := u64 (p.pfSeq + 1) }
  let t ← get
  if 256 ≤ t.p.resident.length then Halting.halt (.panic .residentFull)
  -- `pf_seq` is a `uint64` and the field `seq` an `int`: the number is cut to 32 bits.
  else setProc fun p => { p with
    resident := p.resident ++ [{ va, seq := int32 p.pfSeq, isDirty }] }

/-- `remove_resident_page`: drop the first entry of `va`. -/
def removeResidentPage (va : Nat) : TM Unit :=
  setProc fun p => { p with resident := p.resident.eraseP fun e => e.va == va }

/-- The loop of `find_victim_page`, over the entries left. -/
def findVictimLoop : List ResidentPage → Nat → Nat → Int → Nat
  | [], _, oldestIdx, _ => oldestIdx
  | e :: rest, i, oldestIdx, oldestSeq =>
    -- Strictly lower: of two entries with one number the first stays.
    if e.seq < oldestSeq then findVictimLoop rest (i + 1) i e.seq
    else findVictimLoop rest (i + 1) oldestIdx oldestSeq

/-- `find_victim_page`: the index of the resident page with the lowest sequence number. -/
def findVictimPage : List ResidentPage → Option Nat
  | [] => none
  | e :: rest => some (findVictimLoop rest 1 0 e.seq)

/-- `find_free_swap_slot`: take the first free slot. -/
def findFreeSwapSlot : TM (Option Nat) := do
  let t ← get
  match (List.range 1024).find? fun i => !t.p.swapSlots i with
  | none => pure none
  | some i => do
    -- The slot is taken here, and the caller that fails afterwards does not give it back.
    setProc fun p => { p with swapSlots := Function.update p.swapSlots i true }
    pure (some i)

/-- `swap_out_page`: append the page and its data to `swapped_pages`, which has room for 8. -/
def swapOutPage (va slot : Nat) : TM Int := do
  match ← onMem (walk (← pagetableOf) va false) with
  | none => pure (-1)
  | some (f, i) => do
    let pte ← onMem (readPte f i)
    let t ← get
    if !pte.v then pure (-1)
    -- `swapped_pages` has 8 entries, although there are 1024 slots.
    else if 8 ≤ t.p.swapped.length then pure (-1)
    else do
      setProc fun p => { p with
        swapped := p.swapped ++ [⟨va, slot, (t.mem.phys pte.ppn).byte⟩] }
      pure 0

/-- `swap_in_page`: copy the data of the entry of `va` and `slot` to the frame `mem`, drop the
entry and free its slot. -/
def swapInPage (va slot : Nat) (mem : Frame) : TM Int := do
  let t ← get
  match t.p.swapped.findIdx? fun e => e.va == va && e.slot == slot with
  | none => pure (-1)
  | some found => do
    match t.p.swapped[found]? with
    | none => pure (-1)
    | some e => do
      onMem (memmovePage mem e.data)
      -- The later entries move up by one, and the order of the list stays.
      setProc fun p => { p with
        swapped := p.swapped.eraseIdx found
        swapSlots := Function.update p.swapSlots slot false }
      pure 0

/-! ## The fault handler -/

/-- The slot of the first `swapped_pages` entry of the page `a`. -/
def swapSlotOf (p : Proc) (a : Nat) :
    Option Nat := (p.swapped.find? fun e => e.va == a).map (·.slot)

/-- The page lies in the heap. -/
def inHeap (p : Proc) (a : Nat) : Bool := pgRoundDown p.lazyHeapStart ≤ a && a < p.sz

/-- The page lies in the stack, the last `USERSTACK` pages below `p->sz`. -/
def inStack (p : Proc) (a : Nat) : Bool :=
  -- The subtraction is in `uint64`, so a size below one page wraps around.
  a < p.sz && pgRoundDown (u64 (p.sz + (2 ^ 64 - userStack * pgSize))) ≤ a

/-- The segment a fault at `va` is loaded from; a swapped page is not looked up. -/
def faultSeg (p : Proc) (va : Nat) : Option (Fin 16) :=
  if (swapSlotOf p (pgRoundDown va)).isSome then none else lazySegFind p va

/-- `is_valid`: whether a fault at `va` on a page that is not mapped is accepted. -/
def isValid (p : Proc) (va : Nat) : Bool :=
  (faultSeg p va).isSome || inHeap p (pgRoundDown va) ||
    (swapSlotOf p (pgRoundDown va)).isSome || inStack p (pgRoundDown va)

/-- Set `is_dirty` in the first entry of the page `a`. -/
def markDirty (a : Nat) (l : List ResidentPage) : List ResidentPage :=
  match l.findIdx? fun e => e.va == a with
  | none => l
  | some i => l.modify i fun e => { e with isDirty := true }

/-- A fault on a page that is already mapped: a write marks it dirty, or fails without `PTE_W`. -/
def faultMapped (a : Nat) (isWrite : Bool) (pte : Pte) : TM Int :=
  if isWrite then
    if !pte.perm.w then pure (-1)
    else do
      -- The first entry of the page only, and none when the page is not on the list.
      setProc fun p => { p with resident := markDirty a p.resident }
      pure 0
  else pure 0

/-- Free the frame of the victim page and clear its entry. -/
def freeVictim (va : Nat) : TM Unit := do
  match ← onMem (walk (← pagetableOf) va false) with
  | none => pure ()
  | some (f, i) => do
    let pte ← onMem (readPte f i)
    if pte.v then do
      onMem (kfree pte.ppn)
      onMem (writePte f i Pte.zero)
    else pure ()

/-- Page replacement: the oldest resident page is swapped out when it is marked dirty and
discarded otherwise. `false` when there is no page to evict or no room to swap it out. -/
def evictPage : TM Bool := do
  let t ← get
  match findVictimPage t.p.resident with
  | none => pure false
  | some idx => do
    match t.p.resident[idx]? with
    | none => pure false
    | some victim => do
      if victim.isDirty then do
        -- Only a dirty page is written to the swap area; a clean one can be loaded again.
        match ← findFreeSwapSlot with
        | none => pure false
        | some slot => do
          -- The victim stays mapped and listed when it cannot be swapped out.
          if (← swapOutPage victim.va slot) < 0 then pure false
          else do
            freeVictim victim.va
            removeResidentPage victim.va
            pure true
      else do
        freeVictim victim.va
        removeResidentPage victim.va
        pure true

/-- A frame for the faulting page: from `kalloc`, or after an eviction when the process has its
limit of resident pages or `kalloc` fails. -/
def faultFrame : TM (Option Frame) := do
  let t ← get
  -- The limit is tested before `kalloc`: at 40 pages one is evicted even with memory left.
  let mem ← if maxResidentPages ≤ t.p.resident.length then pure none else onMem kalloc
  match mem with
  | some f => pure (some f)
  | none => do
    -- The frame of the victim was freed, yet the second `kalloc` may still fail.
    if ← evictPage then onMem kalloc else pure none

/-- Load the page `a` into the frame `mem` from the segment `seg`: the bytes of the file, and the
permissions of the segment. `none` when the file is too short. -/
def loadSegment (fs : Fs) (a : Nat) (mem : Frame) (seg : LazySeg) : TM (Option Perm) := do
  let perm : Perm := { r := true, w := (flags2perm seg.flags).w, x := (flags2perm seg.flags).x,
                       u := true }
  let pageOffsetInSeg := u64 (a + (2 ^ 64 - seg.vaddr))
  let fileReadStart := u64 (seg.fileoff + pageOffsetInSeg)
  -- Behind the file's part of the segment the page stays zero.
  if pageOffsetInSeg < seg.filesz then do
    -- From the start of the page to the end of the file's part, at most one page.
    let toread := min (seg.filesz - pageOffsetInSeg) pgSize
    liftFs (ilock fs seg.ip)
    match seg.ip with
    | none => pure none
    | some ip => do
      let (r, bytes) ← liftFs (readi fs ip fileReadStart toread)
      -- A short read fails the fault.
      if r ≠ toread then pure none
      else do
        onMem (memmovePage mem fun k => if k < toread then bytes k else 0)
        pure (some perm)
  else pure (some perm)

/-- Load the page `a`, faulted at `va`, into the zeroed frame `mem`: from swap, from its segment,
or as it is. -/
def loadPage (fs : Fs) (va : Nat) (slot : Option Nat) (si : Option (Fin 16)) (mem : Frame) :
    TM (Option Perm) := do
  let t ← get
  match slot, si with
  -- A swapped page comes back with all permissions, whatever it had before.
  | some s, _ => do
    if (← swapInPage (pgRoundDown va) s mem) < 0 then pure none
    else pure (some { r := true, w := true, x := true, u := true })
  | none, some i => loadSegment fs (pgRoundDown va) mem (t.p.lazySegs i)
  -- Heap and stack pages are zero, and may be read, written and executed.
  | none, none => pure (some { r := true, w := true, x := true, u := true })

/-- The part of `demand_page_load_new` after the validity check. -/
def faultLoad (fs : Fs) (va : Nat) (isWrite : Bool) : TM Int := do
  let t ← get
  let slot := swapSlotOf t.p (pgRoundDown va)
  let si := faultSeg t.p va
  -- Slot and segment are those from before the eviction, as in the source.
  match ← faultFrame with
  | none => pure (-1)
  | some mem => do
    onMem (memset mem 0)
    match ← loadPage fs va slot si mem with
    -- A swapped page whose entry is gone, or a short read: only the frame is given back.
    | none => do
      onMem (kfree mem)
      pure (-1)
    | some perm => do
      if (← onMem (mappages (← pagetableOf) (pgRoundDown va) pgSize mem perm)) ≠ 0 then do
        onMem (kfree mem)
        pure (-1)
      else do
        -- A page that a write has faulted in is dirty from the start.
        addResidentPage (pgRoundDown va) isWrite
        pure 0

/-- `demand_page_load_new(va, is_write, is_exec)`. The kind of access matters only as far as it is
a write; `is_exec` is only printed. -/
def demandPageLoadNew (fs : Fs) (va : Nat) (isWrite _isExec : Bool) : TM Int := do
  -- `walk` panics from `MAXVA` on; the handler returns before it calls it.
  if maxVa ≤ va then pure (-1)
  else do
    match ← onMem (walk (← pagetableOf) (pgRoundDown va) false) with
    | some (f, i) => do
      let pte ← onMem (readPte f i)
      let t ← get
      -- A mapped page is not checked against the segments or the size any more.
      if pte.v then faultMapped (pgRoundDown va) isWrite pte
      else if isValid t.p va then faultLoad fs va isWrite
      else pure (-1)
    | none => do
      let t ← get
      if isValid t.p va then faultLoad fs va isWrite else pure (-1)

/-! ## Kernel copies -/

/-- `walkaddr`, with a fault when the page is not mapped for the user. -/
def walkaddrFault (fs : Fs) (pagetable : Frame) (va0 : Nat) (isWrite : Bool) :
    TM (Option Frame) := do
  match ← onMem (walkaddr pagetable va0) with
  | some pa0 => pure (some pa0)
  | none => do
    -- The kernel's faults are reads or writes, never instruction fetches.
    if (← demandPageLoadNew fs va0 isWrite false) ≠ 0 then pure none
    else onMem (walkaddr pagetable va0)

/-- The loop of `copyout`, one page at a time: the return value, and the bytes of the source that
are not copied. The first argument bounds the number of rounds; each copies a byte at least. -/
def copyoutLoop (fs : Fs) (pagetable : Frame) : Nat → Nat → List UInt8 → TM (Int × List UInt8)
  | 0, _, src => pure (0, src)
  | fuel + 1, dstva, src => do
    if src.length = 0 then pure (0, src)
    else if maxVa ≤ pgRoundDown dstva then pure (-1, src)
    else do
      match ← walkaddrFault fs pagetable (pgRoundDown dstva) true with
      | none => pure (-1, src)
      | some pa0 => do
        match ← onMem (walk pagetable (pgRoundDown dstva) false) with
        -- `*pte` is read without a test; a null pointer makes the kernel trap.
        | none => Halting.halt (.panic .kerneltrap)
        | some (f, i) => do
          let pte ← onMem (readPte f i)
          if !pte.perm.w then pure (-1, src)
          else do
            -- The first page is copied from the offset of `dstva` on, all others from their start.
            let n := min (pgSize - (dstva - pgRoundDown dstva)) src.length
            onMem (modify fun m => m.setBytes pa0 (dstva - pgRoundDown dstva) (src.take n))
            copyoutLoop fs pagetable fuel (pgRoundDown dstva + pgSize) (src.drop n)

/-- `copyout`. -/
def copyout (fs : Fs) (pagetable : Frame) (dstva : Nat) (src : List UInt8) : TM Int := do
  let (r, _) ← copyoutLoop fs pagetable src.length dstva src
  pure r

/-- The `n` bytes of page `f` from offset `off` on. -/
def Mem.bytes (m : Mem) (f : Frame) (off n : Nat) : List UInt8 :=
  (List.range n).map fun k => (m.phys f).byte (off + k)

/-- The loop of `copyin`, one page at a time: the return value, and the bytes copied. -/
def copyinLoop (fs : Fs) (pagetable : Frame) :
    Nat → Nat → Nat → List UInt8 → TM (Int × List UInt8)
  | 0, _, _, dst => pure (0, dst)
  | fuel + 1, srcva, len, dst => do
    if len = 0 then pure (0, dst)
    else if maxVa ≤ pgRoundDown srcva then pure (-1, dst)
    else do
      match ← walkaddrFault fs pagetable (pgRoundDown srcva) false with
      | none => pure (-1, dst)
      | some pa0 => do
        let n := min (pgSize - (srcva - pgRoundDown srcva)) len
        let t ← get
        copyinLoop fs pagetable fuel (pgRoundDown srcva + pgSize) (len - n)
          (dst ++ t.mem.bytes pa0 (srcva - pgRoundDown srcva) n)

/-- `copyin`: the return value and the bytes copied. -/
def copyin (fs : Fs) (pagetable : Frame) (srcva len : Nat) : TM (Int × List UInt8) :=
  copyinLoop fs pagetable len srcva len []

/-- The loop of `copyinstr`, one page at a time, with `max` bytes left: the return value, and the
bytes copied. It ends at the first NUL. -/
def copyinstrLoop (fs : Fs) (pagetable : Frame) :
    Nat → Nat → Nat → List UInt8 → TM (Int × List UInt8)
  -- No NUL within `max` bytes is an error.
  | 0, _, _, dst => pure (-1, dst)
  | fuel + 1, srcva, max, dst => do
    if max = 0 then pure (-1, dst)
    else if maxVa ≤ pgRoundDown srcva then pure (-1, dst)
    else do
      match ← walkaddrFault fs pagetable (pgRoundDown srcva) false with
      | none => pure (-1, dst)
      | some pa0 => do
        let n := min (pgSize - (srcva - pgRoundDown srcva)) max
        let t ← get
        let bytes := t.mem.bytes pa0 (srcva - pgRoundDown srcva) n
        -- The NUL is copied too, and nothing behind it.
        if 0 ∈ bytes then pure (0, dst ++ bytes.takeWhile (· ≠ 0) ++ [0])
        else copyinstrLoop fs pagetable fuel (pgRoundDown srcva + pgSize) (max - n) (dst ++ bytes)

/-- `copyinstr`: the return value and the bytes copied. -/
def copyinstr (fs : Fs) (pagetable : Frame) (srcva max : Nat) : TM (Int × List UInt8) :=
  copyinstrLoop fs pagetable max srcva max []

/-! ## `sbrk` -/

/-- The new size that `growproc` computes for a shrink by `-n` bytes, in `uint64`. -/
def shrunkSize (sz : Nat) (n : Int) : Nat := ((sz + n) % 2 ^ 64).toNat

/-- `growproc`. -/
def growproc (n : Int) : TM Int := do
  let t ← get
  if 0 < n then
    -- Growing allocates nothing: the pages come with the faults.
    if 100 * 1024 * 1024 < u64 (t.p.sz + n.toNat) then pure (-1)
    else do
      setProc fun p => { p with sz := u64 (t.p.sz + n.toNat) }
      pure 0
  else if n < 0 then do
    -- A shrink must not reach below the start of the heap.
    if shrunkSize t.p.sz n < t.p.lazyHeapStart then pure (-1)
    else do
      setProc fun p => { p with
        resident := p.resident.filter fun e => !(shrunkSize t.p.sz n ≤ e.va && e.va < t.p.sz) }
      -- The resident entries go first; `uvmdealloc` unmaps the whole pages between the sizes.
      let sz ← onMem (uvmdealloc (← pagetableOf) t.p.sz (shrunkSize t.p.sz n))
      setProc fun p => { p with sz := sz }
      pure 0
  else pure 0

/-! ## User accesses -/

/-- The valid entry that the three-level page table gives for `va`. -/
def Mem.lookup (m : Mem) (pagetable : Frame) (va : Nat) : Option Pte :=
  let e2 := (m.phys pagetable).pte (px 2 va)
  if e2.v then
    let e1 := (m.phys e2.ppn).pte (px 1 va)
    if e1.v then
      let e0 := (m.phys e1.ppn).pte (px 0 va)
      if e0.v then some e0 else none
    else none
  else none

/-- A user load that does not fault: the byte read. -/
def userLoad (t : Task) (va : Nat) : Option UInt8 :=
  match t.p.pagetable with
  | none => none
  | some pagetable =>
    if maxVa ≤ va then none
    else match t.mem.lookup pagetable va with
      | some pte => if pte.perm.u && pte.perm.r then some ((t.mem.phys pte.ppn).byte (va % pgSize))
                    else none
      | none => none

/-- A user store that does not fault: the state after it. -/
def userStore (t : Task) (va : Nat) (b : UInt8) : Option Task :=
  match t.p.pagetable with
  | none => none
  | some pagetable =>
    if maxVa ≤ va then none
    else match t.mem.lookup pagetable va with
      | some pte => if pte.perm.u && pte.perm.w then
                      some { t with mem := t.mem.setBytes pte.ppn (va % pgSize) [b] }
                    else none
      | none => none

end Xv6
