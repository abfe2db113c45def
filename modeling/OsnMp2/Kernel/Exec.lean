import OsnMp2.Kernel.Paging

/-!
# The image that `exec` builds

`exec.c` from the check of the ELF header to the commit of the new image, with the page-table
functions of `proc.c` it uses. Looking up the path, locking the inode and counting its references
are in `OsnMp2.Kernel.Process`.

Program headers are read from the bytes of the file, and the arithmetic on their fields is in
`uint64`, as in the source. The name of the process, the name of its swap file and the log line are
left out.

## Main definitions

* `ElfHdr.ofBytes`, `ProgHdr.ofBytes`: the headers in the bytes of a file
* `procPagetable`, `procFreepagetable`: a page table with trampoline and trap frame
* `recordSegs`, `pushArgs`, `execCommit`: the parts of `exec`
* `execImage`: `exec` on an open executable
-/

namespace Xv6

/-- `MAXARG`. -/
abbrev maxArg : Nat := 32

/-- `ELF_MAGIC`. -/
abbrev elfMagic : Nat := 0x464C457F

/-- `ELF_PROG_LOAD`. -/
abbrev elfProgLoad : Nat := 1

/-- The `n` bytes from `off` on, as a little-endian number. -/
def le (data : Nat → UInt8) (off n : Nat) : Nat :=
  (List.range n).foldr (fun k acc => (data (off + k)).toNat + 256 * acc) 0

/-- The little-endian bytes of a number. -/
def leBytes (x : Nat) : Nat → List UInt8
  | 0 => []
  | n + 1 => UInt8.ofNat x :: leBytes (x / 256) n

/-- The fields of `struct elfhdr` that `exec` reads. -/
structure ElfHdr where
  magic : Nat
  entry : Nat
  phoff : Nat
  phnum : Nat
deriving DecidableEq, Repr

/-- `sizeof(struct elfhdr)`. -/
abbrev elfHdrSize : Nat := 64

def ElfHdr.ofBytes (b : Nat → UInt8) : ElfHdr where
  magic := le b 0 4
  entry := le b 24 8
  phoff := le b 32 8
  phnum := le b 56 2

/-- The fields of `struct proghdr` that `exec` reads. -/
structure ProgHdr where
  type : Nat
  flags : Nat
  off : Nat
  vaddr : Nat
  filesz : Nat
  memsz : Nat
deriving DecidableEq, Repr

/-- `sizeof(struct proghdr)`. -/
abbrev progHdrSize : Nat := 56

def ProgHdr.ofBytes (b : Nat → UInt8) : ProgHdr where
  type := le b 0 4
  flags := le b 4 4
  off := le b 8 8
  vaddr := le b 16 8
  filesz := le b 32 8
  memsz := le b 40 8

/-! ## Page tables with trampoline and trap frame -/

/-- `proc_pagetable`, for the trap frame `tf`. -/
def procPagetable (tf : Frame) : VM (Option Frame) := do
  match ← uvmcreate with
  | none => pure none
  | some pagetable => do
    let m ← get
    if (← mappages pagetable trampolineVa pgSize m.tramp { r := true, x := true }) < 0 then do
      -- There are no user pages yet, so only the page-table pages are freed.
      uvmfree pagetable 0
      pure none
    else if (← mappages pagetable trapframeVa pgSize tf { r := true, w := true }) < 0 then do
      -- The code of the trampoline is shared and not freed.
      uvmunmap pagetable trampolineVa 1 false
      uvmfree pagetable 0
      pure none
    else pure (some pagetable)

/-- `proc_freepagetable`. -/
def procFreepagetable (pagetable : Frame) (sz : Nat) : VM Unit := do
  uvmunmap pagetable trampolineVa 1 false
  uvmunmap pagetable trapframeVa 1 false
  uvmfree pagetable sz

/-- `cleanup_swap_file`. -/
def cleanupSwapFile (p : Proc) : Proc :=
  { p with swapSlots := fun _ => false, resident := [], swapped := [], pfSeq := 0 }

/-! ## The parts of `exec` -/

/-- Check a `PT_LOAD` header: `memsz >= filesz`, no wrap of `vaddr + memsz`, `vaddr` aligned. -/
def ProgHdr.loadable (ph : ProgHdr) : Bool :=
  ph.filesz ≤ ph.memsz && ph.vaddr ≤ u64 (ph.vaddr + ph.memsz) && ph.vaddr % pgSize == 0

/-- The segment recorded for a program header of the inode `ip`. -/
def ProgHdr.seg (ph : ProgHdr) (ip : Nat) : LazySeg :=
  { vaddr := ph.vaddr, filesz := ph.filesz, memsz := ph.memsz, fileoff := ph.off, flags := ph.flags,
    ip := some ip }

/-- The loop of `exec` over the program headers left, from offset `off` on: record the segments and
return the highest end of a segment; `none` is `goto bad`. -/
def recordSegs (fs : Fs) (ip : Nat) : Nat → Nat → Nat → TM (Option Nat)
  | 0, _, sz => pure (some sz)
  | n + 1, off, sz => do
    let (r, bytes) ← liftFs (readi fs ip off progHdrSize)
    -- The table of headers must lie in the file, or the image is given up.
    if r ≠ progHdrSize then pure none
    else if (ProgHdr.ofBytes bytes).type ≠ elfProgLoad then
      -- Other headers are skipped, whatever is in them.
      recordSegs fs ip n (off + progHdrSize) sz
    else if !(ProgHdr.ofBytes bytes).loadable then pure none
    else do
      let t ← get
      if h : t.p.lazyNseg < 16 then do
        -- The entry of `lazy_segs` is overwritten, the reference that it held being kept: no
        -- `iput`.
        setProc fun p => { p with
          lazySegs := Function.update p.lazySegs ⟨t.p.lazyNseg, h⟩ ((ProgHdr.ofBytes bytes).seg ip)
          lazyNseg := t.p.lazyNseg + 1 }
        recordSegs fs ip n (off + progHdrSize)
          (max sz (u64 ((ProgHdr.ofBytes bytes).vaddr + (ProgHdr.ofBytes bytes).memsz)))
      else pure none

/-- The bytes of a C string, without the final NUL. -/
def cstr (s : List UInt8) : List UInt8 := s.takeWhile (· ≠ 0)

/-- Move the stack pointer down by `n` bytes and align it to 16. -/
def pushSp (sp n : Nat) : Nat := u64 (sp + (2 ^ 64 - n)) - u64 (sp + (2 ^ 64 - n)) % 16

/-- The loop of `exec` that pushes the argument strings left; `none` is `goto bad`. -/
def pushArgs (fs : Fs) (pagetable : Frame) (stackbase : Nat) :
    List (List UInt8) → Nat → List Nat → TM (Option (Nat × List Nat))
  | [], sp, ustack => pure (some (sp, ustack))
  | s :: rest, sp, ustack => do
    -- The test comes before the push, so 32 strings pass and a 33rd does not.
    if maxArg ≤ ustack.length then pure none
    else if pushSp sp ((cstr s).length + 1) < stackbase then pure none
    else if (← copyout fs pagetable (pushSp sp ((cstr s).length + 1)) (cstr s ++ [0])) < 0 then
      pure none
    else
      pushArgs fs pagetable stackbase rest (pushSp sp ((cstr s).length + 1))
        (ustack ++ [pushSp sp ((cstr s).length + 1)])

/-- Push the arguments and the array of their addresses: the final stack pointer and `argc`. -/
def pushStack (fs : Fs) (pagetable : Frame) (stackbase sp : Nat) (argv : List (List UInt8)) :
    TM (Option (Nat × Nat)) := do
  match ← pushArgs fs pagetable stackbase argv sp [] with
  | none => pure none
  | some (sp, ustack) => do
    -- The array has one word more than there are arguments, for the null pointer.
    if pushSp sp ((ustack.length + 1) * 8) < stackbase then pure none
    else if (← copyout fs pagetable (pushSp sp ((ustack.length + 1) * 8))
        ((ustack ++ [0]).flatMap fun w => leBytes w 8)) < 0 then pure none
    else pure (some (pushSp sp ((ustack.length + 1) * 8), ustack.length))

/-- The new process image: page table, size, bounds, and tables with the stack page alone. -/
def newImage (p : Proc) (pagetable : Frame) (sz sp stackPage entry : Nat) : Proc :=
  { p with
    pagetable := some pagetable
    sz := sz
    lazyHeapStart := sz
    lazyStackTop := sz
    lazyMaxAddr := sz
    -- Without a segment the bounds of the old image stay.
    textStart := if 0 < p.lazyNseg then (p.lazySegs 0).vaddr else p.textStart
    textEnd := if 0 < p.lazyNseg then u64 ((p.lazySegs 0).vaddr + (p.lazySegs 0).memsz)
      else p.textEnd
    dataStart := if 1 < p.lazyNseg then (p.lazySegs 1).vaddr else p.dataStart
    dataEnd := if 1 < p.lazyNseg then u64 ((p.lazySegs 1).vaddr + (p.lazySegs 1).memsz)
      else p.dataEnd
    pfSeq := 1
    -- Sequence number 1, and dirty from the start: the arguments are on the stack page.
    resident := [{ va := stackPage, seq := 1, isDirty := true }]
    swapped := []
    swapSlots := fun _ => false
    tf := { p.tf with a1 := sp, epc := entry, sp := sp } }

/-- Commit to the user image, and free the old page table with its original size. -/
def execCommit (pagetable : Frame) (sz sp stackPage entry : Nat) : TM Unit := do
  let t ← get
  -- `cleanup_swap_file` also empties the tables that are set right after it.
  setProc fun p => newImage (if 0 < p.swapped.length then cleanupSwapFile p else p)
    pagetable sz sp stackPage entry
  match t.p.pagetable with
  | none => pure ()
  -- With the size that the old image had.
  | some oldpagetable =>
    if oldpagetable ≠ pagetable then onMem (procFreepagetable oldpagetable t.p.sz) else pure ()

/-- `bad:` of `exec`, with the new page table built. -/
def execBad (pagetable : Frame) : TM Int := do
  -- The size 1 makes `uvmfree` unmap the first page only; the stack page is not among them.
  onMem (procFreepagetable pagetable 1)
  pure (-1)

/-- The size of the new image: above the segments, a guard page and a stack page. -/
def execSize (segEnd : Nat) : Nat := u64 (pgRoundUp segEnd + 2 * pgSize)

/-- The page below the address `sz`, in `uint64`. -/
def execStackbase (sz : Nat) : Nat := u64 (sz + (2 ^ 64 - pgSize))

/-- `exec` once the new page table and the recorded segments are there: the stack page, the
arguments and the commit. -/
def execStack (fs : Fs) (pagetable : Frame) (sz entry : Nat) (argv : List (List UInt8)) :
    TM Int := do
  match ← onMem kalloc with
  -- `p->lazy_segs` and `p->pf_seq` are those of the new image already.
  | none => execBad pagetable
  | some mem => do
    onMem (memset mem 0)
    if (← onMem (mappages pagetable (pgRoundDown (execStackbase sz)) pgSize mem
        { r := true, w := true, u := true })) ≠ 0 then do
      onMem (kfree mem)
      execBad pagetable
    else do
      -- `copyout` faults through the page table of the process, not through `pagetable`.
      match ← pushStack fs pagetable (execStackbase sz) sz argv with
      | none => execBad pagetable
      | some (sp, argc) => do
        execCommit pagetable sz sp (pgRoundDown (execStackbase sz)) entry
        pure argc

/-- `exec` from the check of the ELF header on, with the inode `ip` of the executable locked. -/
def execImage (fs : Fs) (ip : Nat) (argv : List (List UInt8)) : TM Int := do
  let (r, bytes) ← liftFs (readi fs ip 0 elfHdrSize)
  if r ≠ elfHdrSize then pure (-1)
  else if (ElfHdr.ofBytes bytes).magic ≠ elfMagic then pure (-1)
  else do
    let t ← get
    match ← onMem (procPagetable (t.p.trapframe.getD 0)) with
    -- Up to here nothing of the process has changed.
    | none => pure (-1)
    | some pagetable => do
      -- These two are cleared before anything has succeeded.
      setProc fun p => { p with lazyNseg := 0, pfSeq := 0 }
      match ← recordSegs fs ip (ElfHdr.ofBytes bytes).phnum (ElfHdr.ofBytes bytes).phoff 0 with
      | none => execBad pagetable
      | some segEnd => execStack fs pagetable (execSize segEnd) (ElfHdr.ofBytes bytes).entry argv

end Xv6
