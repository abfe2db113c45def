import OsnMp2.Kernel.Memory

/-!
# Processes

`struct proc` with its paging metadata (`proc.h`). An array with a count (`resident_pages` with
`num_resident`, `swapped_pages` with `num_swapped`) is the list of its entries in use, except
`lazy_segs`: `freeproc` and `kfork` go through all sixteen entries, whatever `lazy_nseg` says, so
they are all kept. The saved user registers stand in the process and not in the bytes of the
trap-frame page.

## Main definitions

* `LazySeg`, `ResidentPage`, `SwappedPage`: the entries of the three tables
* `Proc`: a process
* `Task`: the running process together with physical memory
-/

namespace Xv6

/-- A file-backed segment recorded by `exec` for demand loading. -/
structure LazySeg where
  vaddr : Nat := 0
  filesz : Nat := 0
  memsz : Nat := 0
  fileoff : Nat := 0
  flags : Nat := 0
  ip : Option Nat := none
deriving DecidableEq, Repr

/-- An entry of `resident_pages`. -/
structure ResidentPage where
  va : Nat
  seq : Int
  isDirty : Bool
  swapSlot : Int := -1
deriving DecidableEq, Repr

/-- An entry of `swapped_pages`, with the data of the page. -/
structure SwappedPage where
  va : Nat
  slot : Nat
  data : Nat → UInt8

/-- `enum procstate`. -/
inductive ProcState
  | unused | used | sleeping | runnable | running | zombie
deriving DecidableEq, Repr

/-- The saved user registers that the modelled functions set. -/
structure Trapframe where
  epc : Nat := 0
  sp : Nat := 0
  a0 : Int := 0
  a1 : Nat := 0
deriving DecidableEq, Repr

/-- `struct proc`. -/
structure Proc where
  state : ProcState := .unused
  killed : Bool := false
  xstate : Int := 0
  pid : Nat := 0
  parent : Option Nat := none
  sz : Nat := 0
  pagetable : Option Frame := none
  trapframe : Option Frame := none
  tf : Trapframe := {}
  ofile : Fin 16 → Option Nat := fun _ => none
  cwd : Option Nat := none
  lazySegs : Fin 16 → LazySeg := fun _ => {}
  lazyNseg : Nat := 0
  lazyHeapStart : Nat := 0
  lazyStackTop : Nat := 0
  lazyMaxAddr : Nat := 0
  pfSeq : Nat := 0
  textStart : Nat := 0
  textEnd : Nat := 0
  dataStart : Nat := 0
  dataEnd : Nat := 0
  resident : List ResidentPage := []
  swapped : List SwappedPage := []
  swapSlots : Nat → Bool := fun _ => false

/-- The running process (`myproc()`) and physical memory. -/
structure Task where
  mem : Mem
  p : Proc

/-- Computations of the running process. -/
abbrev TM := Halting Task Halt

/-- A computation on physical memory, by the running process. -/
def onMem {α : Type} (x : VM α) : TM α := Halting.zoom Task.mem (fun m t => { t with mem := m }) x

/-- Update the running process. -/
def setProc (f : Proc → Proc) : TM Unit := modify fun t => { t with p := f t.p }

/-- A call that reads the file system and may halt. -/
def liftFs {α : Type} (x : Except Halt α) : TM α := fun t => x.map fun a => (a, t)

/-- `p->pagetable`, about to be dereferenced. -/
def pagetableOf : TM Frame := fun t =>
  match t.p.pagetable with
  | some f => .ok (f, t)
  | none => .error (.panic .kerneltrap)

/-- Conversion of a `uint64` to `int`. -/
def int32 (x : Nat) : Int := if x % 2 ^ 32 < 2 ^ 31 then (x % 2 ^ 32 : Nat)
    else (x % 2 ^ 32 : Nat) - 2 ^ 32

end Xv6
