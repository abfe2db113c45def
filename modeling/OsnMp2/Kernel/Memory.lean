import Mathlib.Algebra.Group.Int.Defs
import Mathlib.Algebra.Group.Nat.Defs
import Mathlib.Data.Nat.Basic
import Mathlib.Logic.Function.Basic
import OsnMp2.Lib.Halting

/-!
# Physical memory, addresses and the page allocator

The machine the kernel runs on (`riscv.h`, `memlayout.h`) and its page allocator (`kalloc.c`).
Virtual addresses and sizes are natural numbers; where the C code computes in `uint64` the
model says so with `u64`. A physical page is named by its frame number, the physical address
divided by the page size, so that `PA2PTE` and `PTE2PA` are the identity.

A physical page is seen in two ways: as the 512 entries of a page-table page and as 4096 bytes.
No frame is used in both ways without a `memset` in between, which writes both.

## Main definitions

* `pgRoundUp`, `pgRoundDown`, `px`: the address arithmetic of `riscv.h`
* `Pte`, `PhysPage`, `Mem`: page-table entries, physical pages, physical memory with its free list
* `kalloc`, `kfree`: the page allocator
-/

namespace Xv6

/-! ## Constants and address arithmetic -/

/-- Bytes per page. -/
abbrev pgSize : Nat := 4096

/-- One beyond the highest possible user virtual address. -/
abbrev maxVa : Nat := 2 ^ 38

/-- The page of the trampoline code, mapped at the highest address. -/
abbrev trampolineVa : Nat := maxVa - pgSize

/-- The page of the trap frame, just below the trampoline. -/
abbrev trapframeVa : Nat := trampolineVa - pgSize

/-- Truncation to `uint64`. -/
def u64 (x : Nat) : Nat := x % 2 ^ 64

/-- Truncation to `uint`. -/
def u32 (x : Nat) : Nat := x % 2 ^ 32

/-- `PGROUNDUP`, in `uint64`. -/
def pgRoundUp (sz : Nat) : Nat := u64 (sz + (pgSize - 1)) / pgSize * pgSize

/-- `PGROUNDDOWN`. -/
def pgRoundDown (a : Nat) : Nat := a / pgSize * pgSize

/-- `PX(level, va)`: the nine bits of `va` that index a page-table page of the level. -/
def px (level va : Nat) : Fin 512 := ⟨va / 2 ^ (12 + 9 * level) % 512, Nat.mod_lt _ (by decide)⟩

/-! ## Page-table entries and physical pages -/

/-- A physical page number. -/
abbrev Frame := Nat

/-- The permission bits of an entry, as passed to `mappages`. -/
structure Perm where
  r : Bool := false
  w : Bool := false
  x : Bool := false
  u : Bool := false
deriving DecidableEq, Repr

/-- A page-table entry: `PTE_V`, the permission bits and the physical page. -/
structure Pte where
  v : Bool
  perm : Perm
  ppn : Frame
deriving DecidableEq, Repr

/-- The entry `0`. -/
def Pte.zero : Pte := ⟨false, {}, 0⟩

/-- The entry stored as the 64-bit word `w`. -/
def Pte.ofWord (w : Nat) : Pte :=
  ⟨w.testBit 0, ⟨w.testBit 1, w.testBit 2, w.testBit 3, w.testBit 4⟩, w / 2 ^ 10⟩

/-- One physical page, as a page-table page and as bytes. -/
structure PhysPage where
  pte : Fin 512 → Pte
  byte : Nat → UInt8

/-- The page after `memset(pa, c, PGSIZE)`. -/
def PhysPage.fill (c : UInt8) : PhysPage where
  -- The eight bytes of an entry are all `c`.
  pte := fun _ => Pte.ofWord (c.toNat * 0x0101010101010101)
  byte := fun _ => c

/-- Physical memory: `kmem.freelist`, the pages themselves, the first frame after the kernel
(`end`) and the frame of `trampoline.S`. `starved` is what the other CPUs do to this one: a
`true` at its head says that they hold the whole free list when the next `kalloc` looks. `refreed`
is a record for the proofs, which no function reads: `kfree` was called on a page that was free. -/
structure Mem where
  freelist : List Frame
  phys : Frame → PhysPage
  kend : Frame
  tramp : Frame
  starved : List Bool
  refreed : Bool := false

/-! ## Why a kernel thread stops -/

/-- The panics of the modelled functions; `kerneltrap` is also what the dereference of a null
pointer ends in, and `kstack` the end of the kernel stack. -/
inductive Panic
  | kfree | walk | mappagesVa | mappagesSize | mappagesZero | remap | uvmunmap
  | residentFull | kerneltrap | kstack
  | ilock | ilockNoType | iunlock | iget | filedup | fileclose | schedLocks | initExiting
  | dirlookup
  | unlinkNlink | logWrite | logCommitting
deriving DecidableEq, Repr

/-- What a kernel thread sleeps for. -/
inductive Chan
  | inode (ip : Nat)
  | buf (b : Nat)
  | child
deriving DecidableEq, Repr

/-- How a kernel thread ends other than by returning: it panics, or it sleeps on a channel that
only another thread will signal. -/
inductive Halt
  | panic (p : Panic)
  | asleep (c : Chan)
deriving DecidableEq, Repr

/-- Computations on physical memory. -/
abbrev VM := Halting Mem Halt

/-! ## Reading and writing physical pages -/

/-- Replace the page at `f`. -/
def Mem.setPage (m : Mem) (f : Frame) (pg : PhysPage) : Mem :=
  { m with phys := Function.update m.phys f pg }

/-- Write entry `i` of the page-table page `f`. -/
def Mem.setPte (m : Mem) (f : Frame) (i : Fin 512) (e : Pte) : Mem :=
  m.setPage f { m.phys f with pte := Function.update (m.phys f).pte i e }

/-- Copy `bs` to the bytes of page `f` from offset `off` on. -/
def Mem.setBytes (m : Mem) (f : Frame) (off : Nat) (bs : List UInt8) : Mem :=
  m.setPage f { m.phys f with
    byte := fun k => if off ≤ k ∧ k < off + bs.length then bs.getD (k - off) 0
      else (m.phys f).byte k }

/-- `memset(f, c, PGSIZE)`. -/
def memset (f : Frame) (c : UInt8) : VM Unit := modify fun m => m.setPage f (PhysPage.fill c)

/-- Copy the bytes of a whole page to the frame `f`. -/
def memmovePage (f : Frame) (bytes : Nat → UInt8) : VM Unit :=
  modify fun m => m.setPage f { m.phys f with byte := bytes }

/-! ## The allocator -/

/-- The frames `kfree` accepts: from `end` up to `PHYSTOP`. -/
def Mem.Allocatable (m : Mem) (f : Frame) : Prop := m.kend ≤ f ∧ f < 0x88000

instance (m : Mem) (f : Frame) : Decidable (m.Allocatable f) := inferInstanceAs (Decidable (_ ∧ _))

/-- `kfree`: put the page on the free list, filled with junk. -/
def kfree (f : Frame) : VM Unit := fun m =>
  if m.Allocatable f then
    .ok ((), { m.setPage f (PhysPage.fill 1) with
      -- No test for a page that is free already: it would be on the list twice.
      freelist := f :: m.freelist, refreed := m.refreed || decide (f ∈ m.freelist) })
  else .error (.panic .kfree)

/-- `kalloc`: the page at the head of the free list, filled with junk; `none` when the list is
empty. -/
def kalloc : VM (Option Frame) := fun m =>
  match m.starved, m.freelist with
  -- All pages are held by others.
  | true :: t, _ => .ok (none, { m with starved := t })
  | t, [] => .ok (none, { m with starved := t.tail })
  -- `memset(r, 5, PGSIZE)`: the entries of the page are junk until the caller clears it.
  | t, r :: next =>
    .ok (some r, { m.setPage r (PhysPage.fill 5) with freelist := next, starved := t.tail })

end Xv6
