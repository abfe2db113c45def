import OsnMp2.Kernel.Exec

/-!
# The kernel's processes, files and inodes

The whole kernel state, with the inode table and the file table of `fs.c` and `file.c` as far as
reference counts go, and the process functions of `proc.c`: `allocproc`, `freeproc`, `kfork`,
`kexit`, `kwait`, and `exec`.

There is one device, so an inode is found by its number. Directories are given by their entries.
Transactions, pipes, names and scheduling are left out: a process that is not a zombie may act,
and a kernel function runs to its end in one step.

## Main definitions

* `Kernel`: the kernel state
* `iget`, `idup`, `iput`, `namei`: references to in-memory inodes
* `filedup`, `fileclose`: references to open files
* `exec`, `allocproc`, `freeproc`, `kfork`, `kexit`, `kwait`
-/

namespace Xv6

/-- `NPROC`. -/
abbrev nProc : Nat := 64

/-- `NINODE`. -/
abbrev nInode : Nat := 50

/-- `ROOTINO`. -/
abbrev rootIno : Nat := 1

/-- `DIRSIZ`. -/
abbrev dirSiz : Nat := 14

/-- The type of an open file. -/
inductive FdType
  | none | pipe | inode | device
deriving DecidableEq, Repr

/-- `struct file`. -/
structure File where
  type : FdType := .none
  ref : Int := 0
  readable : Bool := false
  writable : Bool := false
  ip : Nat := 0
  off : Nat := 0
  major : Int := 0

/-- The kernel state. -/
structure Kernel where
  mem : Mem
  procs : Nat → Proc
  nextpid : Nat
  initproc : Option Nat
  fs : Fs
  ftable : Nat → File

/-- Computations of the kernel. -/
abbrev K := Halting Kernel Halt

/-! ## Access to the parts of the state -/

/-- Process slot `i`. -/
def getProc (i : Nat) : K Proc := fun k => .ok (k.procs i, k)

/-- Update process slot `i`. -/
def updProc (i : Nat) (f : Proc → Proc) : K Unit :=
  modify fun k => { k with procs := Function.update k.procs i (f (k.procs i)) }

/-- A computation on physical memory, by the kernel. -/
def onPhys {α : Type} (x : VM α) : K α := Halting.zoom Kernel.mem (fun m k => { k with mem := m }) x

/-- The process in slot `i` as the running process. -/
def Kernel.task (k : Kernel) (i : Nat) : Task := ⟨k.mem, k.procs i⟩

/-- Put the running process back into slot `i`. -/
def Kernel.setTask (i : Nat) (t : Task) (k : Kernel) : Kernel :=
  { k with mem := t.mem, procs := Function.update k.procs i t.p }

/-- A computation of the process in slot `i`. -/
def onTask {α : Type} (i : Nat) (x : Fs → TM α) : K α := fun k =>
  Halting.zoom (Kernel.task · i) (Kernel.setTask i) (x k.fs) k

/-- Update in-memory inode `ip`. -/
def updInode (ip : Nat) (f : Inode → Inode) : K Unit :=
  modify fun k => { k with
    fs := { k.fs with itable := Function.update k.fs.itable ip (f (k.fs.itable ip)) } }

/-! ## References to inodes -/

/-- `iget`: the in-memory inode of number `inum`, with one more reference. -/
def iget (inum : Nat) : K Nat := do
  let k ← get
  match (List.range nInode).find? fun s =>
      decide (0 < (k.fs.itable s).ref) && (k.fs.itable s).inum == inum with
  | some s => do
    updInode s fun ip => { ip with ref := ip.ref + 1 }
    pure s
  | none =>
    -- No inode of this number is in memory: recycle an entry without references.
    match (List.range nInode).find? fun s => (k.fs.itable s).ref == 0 with
    | some s => do
      updInode s fun ip => { ip with inum, ref := 1, valid := false }
      pure s
    | none => Halting.halt (.panic .iget)

/-- `idup`. -/
def idup (ip : Nat) : K Unit := updInode ip fun n => { n with ref := n.ref + 1 }

/-- `iput`: drop a reference; the last one of an inode without links frees it on disk. -/
def iput (ip : Nat) : K Unit := do
  let k ← get
  let n := k.fs.itable ip
  if n.ref = 1 ∧ n.valid ∧ n.dinode.nlink = 0 then do
    -- `itrunc` and `iupdate`: the inode on disk becomes free, with no content.
    modify fun k => { k with fs := { k.fs with disk := Function.update k.fs.disk n.inum {} } }
    updInode ip fun n => { n with dinode := {}, valid := false }
    updInode ip fun n => { n with ref := n.ref - 1 }
  else updInode ip fun n => { n with ref := n.ref - 1 }

/-- `ilock`, by the process in slot `i`. -/
def ilockInode (i ip : Nat) : K Unit := do
  let k ← get
  match ilock k.fs (some ip) with
  | .error e => Halting.halt e
  | .ok () => updInode ip fun n => { n with
      valid := true, dinode := k.fs.content ip, lockedBy := some (k.procs i).pid }

/-- `iunlock`, by the process in slot `i`. -/
def iunlock (i ip : Nat) : K Unit := do
  let k ← get
  -- `holdingsleep` compares process ids, not slots.
  if (k.fs.itable ip).lockedBy ≠ some (k.procs i).pid ∨ (k.fs.itable ip).ref < 1 then
    Halting.halt (.panic .iunlock)
  else updInode ip fun n => { n with lockedBy := none }

/-- The elements of a path, cut to `DIRSIZ` bytes, as `skipelem` finds them one by one. -/
def pathElems (path : List UInt8) : List Name :=
  ((path.splitOn 47).filter (· ≠ [])).map (·.take dirSiz)

/-- `dirlookup`: the inode the directory `dp` has under a name. -/
def dirlookup (dp : Nat) (name : Name) : K (Option Nat) := do
  let k ← get
  if (k.fs.itable dp).dinode.type ≠ .dir then Halting.halt (.panic .dirlookup)
  -- An entry with inode number zero is free.
  else match (k.fs.itable dp).dinode.dirents.find? fun e => e.2 != 0 && e.1 == name with
    | none => pure none
    | some e => do
      let s ← iget e.2
      pure (some s)

/-- The loop of `namex` over the path elements left, from the inode `ip` on. -/
def namexLoop (i : Nat) : List Name → Nat → K (Option Nat)
  | [], ip => pure (some ip)
  | name :: rest, ip => do
    ilockInode i ip
    let k ← get
    -- A path element below something that is not a directory.
    if (k.fs.itable ip).dinode.type ≠ .dir then do
      iunlock i ip
      iput ip
      pure none
    else do
      match ← dirlookup ip name with
      | none => do
        iunlock i ip
        iput ip
        pure none
      | some next => do
        iunlock i ip
        iput ip
        namexLoop i rest next

/-- `namei`, by the process in slot `i`. -/
def namei (i : Nat) (path : List UInt8) : K (Option Nat) := do
  if path.head? = some 47 then do
    let ip ← iget rootIno
    namexLoop i (pathElems path) ip
  else do
    let p ← getProc i
    match p.cwd with
    | none => Halting.halt (.panic .kerneltrap)
    | some cwd => do
      -- A relative path starts at the current directory, whose reference the loop gives up.
      idup cwd
      namexLoop i (pathElems path) cwd

/-! ## Open files -/

/-- Update open file `f`. -/
def updFile (f : Nat) (g : File → File) : K Unit :=
  modify fun k => { k with ftable := Function.update k.ftable f (g (k.ftable f)) }

/-- `filedup`. -/
def filedup (f : Nat) : K Unit := do
  let k ← get
  if (k.ftable f).ref < 1 then Halting.halt (.panic .filedup)
  else updFile f fun fl => { fl with ref := fl.ref + 1 }

/-- `fileclose`. -/
def fileclose (f : Nat) : K Unit := do
  let k ← get
  if (k.ftable f).ref < 1 then Halting.halt (.panic .fileclose)
  else if 1 < (k.ftable f).ref then updFile f fun fl => { fl with ref := fl.ref - 1 }
  else do
    -- The entry of `ftable` is free from here on; what it pointed to is closed after it.
    updFile f fun fl => { fl with ref := 0, type := .none }
    if (k.ftable f).type = .inode ∨ (k.ftable f).type = .device then iput (k.ftable f).ip
    else pure ()

/-! ## `exec` -/

/-- `exec`, by the process in slot `i`. The reference that `namei` took is kept when `exec`
succeeds, and `idup` takes another one; a failure after `namei` unlocks the inode only. -/
def exec (i : Nat) (path : List UInt8) (argv : List (List UInt8)) : K Int := do
  match ← namei i path with
  | none => pure (-1)
  | some ip => do
    ilockInode i ip
    let r ← onTask i fun fs => execImage fs ip argv
    -- `idup` before `iunlock`: with the reference of `namei` these are two.
    if 0 ≤ r then idup ip else pure ()
    iunlock i ip
    pure r

/-! ## Allocating and freeing processes -/

/-- The loop of `freeproc` over the entries of `lazy_segs` left. -/
def putSegs (i : Nat) : List (Fin 16) → K Unit
  | [] => pure ()
  | j :: rest => do
    let p ← getProc i
    match (p.lazySegs j).ip with
    | none => putSegs i rest
    | some ip => do
      iput ip
      updProc i fun p => { p with
        lazySegs := Function.update p.lazySegs j { p.lazySegs j with ip := none } }
      putSegs i rest

/-- `freeproc`. -/
def freeproc (i : Nat) : K Unit := do
  let p ← getProc i
  match p.trapframe with
  | none => pure ()
  | some tf => onPhys (kfree tf)
  match p.pagetable with
  | none => pure ()
  | some pagetable => onPhys (procFreepagetable pagetable p.sz)
  -- The pages of a process of size zero are not freed.
  updProc i fun p => { p with trapframe := none, pagetable := none, sz := 0 }
  -- All sixteen entries, whatever `lazy_nseg` says.
  putSegs i (List.finRange 16)
  updProc i fun p => { cleanupSwapFile p with
    pid := 0, parent := none, killed := false, xstate := 0, state := .unused }

/-- The fields that `allocproc` initialises. -/
def initProc (p : Proc) : Proc :=
  { p with
    -- `lazy_nseg` is not among them: a recycled slot keeps the old number until `kfork` or `exec`.
    lazyHeapStart := 0, lazyStackTop := 0, lazyMaxAddr := 0, pfSeq := 0, lazySegs := fun _ => {}
    textStart := 0, textEnd := 0, dataStart := 0, dataEnd := 0
    resident := [], swapped := [], swapSlots := fun _ => false }

/-- `allocproc`: an unused slot, with a trap frame and an empty page table. -/
def allocproc : K (Option Nat) := do
  let k ← get
  match (List.range nProc).find? fun i => (k.procs i).state == .unused with
  | none => pure none
  | some i => do
    -- `allocpid` takes a number also when the allocation fails afterwards.
    modify fun k => { k with nextpid := k.nextpid + 1 }
    updProc i fun p => { p with pid := k.nextpid, state := .used }
    match ← onPhys kalloc with
    | none => do
      freeproc i
      pure none
    | some tf => do
      updProc i fun p => { p with trapframe := some tf }
      match ← onPhys (procPagetable tf) with
      | none => do
        freeproc i
        pure none
      | some pagetable => do
        updProc i fun p => initProc { p with pagetable := some pagetable }
        pure (some i)

/-- `userinit`: the first process. -/
def userinit : K Unit := do
  match ← allocproc with
  -- The null pointer of a failed `allocproc` is dereferenced.
  | none => Halting.halt (.panic .kerneltrap)
  | some i => do
    modify fun k => { k with initproc := some i }
    let ip ← namei i [47]
    updProc i fun p => { p with cwd := ip, state := .runnable }

/-! ## `fork`, `exit` and `wait` -/

/-- The loop of `kfork` that duplicates the inodes of the segments left. -/
def dupSegs (segs : Fin 16 → LazySeg) : List (Fin 16) → K Unit
  | [] => pure ()
  | j :: rest => do
    match (segs j).ip with
    | none => dupSegs segs rest
    | some ip => do
      idup ip
      dupSegs segs rest

/-- The loop of `kfork` that duplicates the open files left. -/
def dupFiles (files : Fin 16 → Option Nat) : List (Fin 16) → K Unit
  | [] => pure ()
  | fd :: rest => do
    match files fd with
    | none => dupFiles files rest
    | some f => do
      filedup f
      dupFiles files rest

/-- The fields that the child `np` gets from its parent `p` (`slot` of the parent). -/
def childOf (slot : Nat) (p np : Proc) : Proc :=
  { np with
    sz := p.sz
    lazyHeapStart := p.lazyHeapStart, lazyStackTop := p.lazyStackTop, lazyMaxAddr := p.lazyMaxAddr
    pfSeq := 0
    lazyNseg := p.lazyNseg
    textStart := p.textStart, textEnd := p.textEnd, dataStart := p.dataStart, dataEnd := p.dataEnd
    -- The child starts with empty tables, although `uvmcopy` has mapped pages for it.
    resident := [], swapped := [], swapSlots := fun _ => false
    lazySegs := p.lazySegs
    tf := { p.tf with a0 := 0 }
    ofile := fun fd => if (p.ofile fd).isSome then p.ofile fd else np.ofile fd
    cwd := p.cwd
    parent := some slot
    state := .runnable }

/-- `kfork`, by the process in slot `i`. -/
def kfork (i : Nat) : K Int := do
  match ← allocproc with
  | none => pure (-1)
  | some j => do
    let p ← getProc i
    let np ← getProc j
    match p.pagetable, np.pagetable with
    | some old, some new => do
      if (← onPhys (uvmcopy old new p.sz)) < 0 then do
        -- The size of the child is still zero here, and its segments are empty.
        freeproc j
        pure (-1)
      else do
        dupSegs p.lazySegs (List.finRange 16)
        dupFiles p.ofile (List.finRange 16)
        match p.cwd with
        | none => Halting.halt (.panic .kerneltrap)
        | some cwd => do
          -- `kfork` does not test for a null pointer before `idup`.
          idup cwd
          updProc j (childOf i p)
          pure np.pid
    | _, _ => Halting.halt (.panic .kerneltrap)

/-- The loop of `kexit` that closes the open files left. -/
def closeFiles (i : Nat) : List (Fin 16) → K Unit
  | [] => pure ()
  | fd :: rest => do
    let p ← getProc i
    match p.ofile fd with
    | none => closeFiles i rest
    | some f => do
      fileclose f
      updProc i fun p => { p with ofile := Function.update p.ofile fd none }
      closeFiles i rest

/-- `kexit`, by the process in slot `i`. -/
def kexit (i : Nat) (status : Int) : K Unit := do
  let k ← get
  if k.initproc = some i then Halting.halt (.panic .initExiting)
  else do
    closeFiles i (List.finRange 16)
    let p ← getProc i
    match p.cwd with
    | none => Halting.halt (.panic .kerneltrap)
    | some cwd => do
      iput cwd
      updProc i fun p => { p with cwd := none }
      -- reparent: the children go to init
      modify fun k => { k with procs := fun j =>
        if (k.procs j).parent = some i then { k.procs j with parent := k.initproc } else k.procs j }
      updProc i fun p => { p with xstate := status, state := .zombie }

/-- `kwait`, by the process in slot `i`: reap an exited child and report its status at `addr`, with
`wait_lock` and the lock of the child held. -/
def kwait (i : Nat) (addr : Nat) : K Int := do
  let k ← get
  match (List.range nProc).find? fun j =>
      (k.procs j).parent == some i && (k.procs j).state == .zombie with
  | some j => do
    let r ← if addr ≠ 0 then
        onTask i fun fs => do
          -- The two locks that are held are in the way of a copy that has to sleep.
          copyout { fs with noff := fs.noff + 2 } (← pagetableOf) addr
            (leBytes ((k.procs j).xstate % 2 ^ 32).toNat 4)
      else pure 0
    if r < 0 then pure (-1)
    -- Only after the status has been copied out is the child freed.
    else do
      freeproc j
      pure (k.procs j).pid
  | none =>
    if (List.range nProc).all fun j => (k.procs j).parent != some i then pure (-1)
    else if (k.procs i).killed then pure (-1)
    -- No child has exited: the thread sleeps until one does.
    else Halting.halt (.asleep .child)

/-! ## Traps from user space -/

/-- The page-fault branch of `usertrap`, for the process in slot `i`: a fault that is not handled
kills the process, and `prepare_return` makes it exit. -/
def usertrapFault (i va : Nat) (isWrite isExec : Bool) : K Unit := do
  if (← onTask i fun fs => demandPageLoadNew fs va isWrite isExec) = 0 then pure ()
  else do
    -- A killed process exits on its way back to user space.
    updProc i fun p => { p with killed := true }
    kexit i (-1)

end Xv6
