import OsnMp2.Kernel.Memory

/-!
# Inodes and buffers as a reader of a file meets them

The part of `fs.c`, `bio.c`, `sleeplock.c` and `virtio_disk.c` that decides whether reading a
file puts the calling thread to sleep, and what it reads. The contents of a file are a function
from offsets to bytes below the file's size; which disk block holds which part of it, and which
blocks are in the buffer cache, matter only for sleeping.

`noff` counts the spinlocks the calling thread holds (`mycpu()->noff`). A thread that sleeps calls
`sched` with its own `p->lock` held on top of them, and `sched` panics unless that is the only one.
Waiting for the disk ends by itself; waiting for a sleep-lock ends when its holder releases it.

## Main definitions

* `Dinode`, `Inode`, `Fs`: inodes on disk and in memory, and the file system's shared state
* `sched`, `acquiresleep`, `bread`, `ilock`: the places where a thread may sleep
* `readi`: reading into kernel memory
-/

namespace Xv6

/-- Block size. -/
abbrev bSize : Nat := 1024

/-- Direct block numbers of an inode. -/
abbrev nDirect : Nat := 12

/-- The types of an inode; `free` is the type `0` of an unallocated one. -/
inductive FileType
  | free | dir | file | device
deriving DecidableEq, Repr

/-- A name in a directory, at most `DIRSIZ` bytes. -/
abbrev Name := List UInt8

/-- An inode on disk: its type, its link count, its device numbers and its content. `addr bn` is the
block that holds the `bn`-th block of the content, `indirect` the indirect block, and `dirents` the
entries of a directory. -/
structure Dinode where
  type : FileType := .free
  nlink : Nat := 0
  major : Int := 0
  minor : Int := 0
  size : Nat := 0
  data : Nat → UInt8 := fun _ => 0
  addr : Nat → Nat := fun _ => 0
  indirect : Nat := 0
  dirents : List (Name × Nat) := []

/-- An inode in memory: `inum`, `ref`, the process holding its sleep-lock, and its copy of the
inode on disk, which counts when `valid`. -/
structure Inode where
  inum : Nat := 0
  ref : Int := 0
  lockedBy : Option Nat := none
  valid : Bool := false
  dinode : Dinode := {}

/-- A block in the buffer cache: ready to be taken, locked by a thread, or not there. -/
inductive BufState
  | ready | locked | absent
deriving DecidableEq, Repr

/-- The state of the file system that its users share. -/
structure Fs where
  itable : Nat → Inode
  disk : Nat → Dinode
  iblock : Nat → Nat
  buf : Nat → BufState
  noff : Nat

/-- The content an inode has once `ilock` has returned. -/
def Fs.content (fs : Fs) (ip : Nat) : Dinode :=
  -- The copy in memory counts once it has been read, also after the block on disk has changed.
  if (fs.itable ip).valid then (fs.itable ip).dinode else fs.disk (fs.itable ip).inum

/-- `sched`, called from `sleep`: the thread holds its `p->lock` and the spinlocks counted
before. -/
def sched (fs : Fs) : Except Halt Unit :=
  -- `sched` panics when any other spinlock is held than `p->lock`.
  if fs.noff + 1 ≠ 1 then .error (.panic .schedLocks) else .ok ()

/-- `acquiresleep`: a locked lock is waited for. -/
def acquiresleep (fs : Fs) (locked : Bool) (c : Chan) : Except Halt Unit :=
  if locked then do
    sched fs
    .error (.asleep c)
  else .ok ()

/-- `virtio_disk_rw`: the request is waited for, and the disk completes it. -/
def virtioDiskRw (fs : Fs) : Except Halt Unit := sched fs

/-- `bread`: the buffer of block `b`, locked, read from disk when it is not in the cache. -/
def bread (fs : Fs) (b : Nat) : Except Halt Unit :=
  match fs.buf b with
  | .ready => .ok ()
  | .locked => acquiresleep fs true (.buf b)
  -- The read from disk always completes, so only the check of `sched` is left of it.
  | .absent => virtioDiskRw fs

/-- `ilock`: lock the inode, and read it from disk when its copy is not valid. -/
def ilock (fs : Fs) : Option Nat → Except Halt Unit
  | none => .error (.panic .ilock)
  | some ip =>
    if (fs.itable ip).ref < 1 then .error (.panic .ilock)
    else do
      acquiresleep fs (fs.itable ip).lockedBy.isSome (.inode ip)
      -- The inode is read at the first `ilock` after `iget`.
      if (fs.itable ip).valid then .ok ()
      else do
        bread fs (fs.iblock (fs.itable ip).inum)
        if (fs.disk (fs.itable ip).inum).type = .free then .error (.panic .ilockNoType) else .ok ()

/-- The buffers `readi` takes for the blocks `bns` of the content: the indirect block when the
block number is not a direct one, then the block itself. -/
def readiBlocks (fs : Fs) (d : Dinode) : List Nat → Except Halt Unit
  | [] => .ok ()
  | bn :: rest => do
    -- `bmap` reads the indirect block first.
    if nDirect ≤ bn then bread fs d.indirect else .ok ()
    bread fs (d.addr bn)
    readiBlocks fs d rest

/-- How many bytes `readi` delivers: nothing past the end of the file or when `off + n` wraps,
otherwise `n` cut at the end of the file. -/
def readiLen (d : Dinode) (off n : Nat) : Nat :=
  -- Both tests are on `uint`, so a large `n` can wrap around.
  if d.size < off ∨ u32 (off + n) < off then 0
  else if d.size < u32 (off + n) then d.size - off
  else n

/-- The blocks of the content that hold the `n` bytes from `off` on. -/
def blocksOf (off n : Nat) : List Nat :=
  if n = 0 then [] else List.range' (off / bSize) ((off + n - 1) / bSize + 1 - off / bSize)

/-- `readi` into kernel memory, with `off` and `n` as `uint`: how many bytes were delivered, and
the bytes. -/
def readi (fs : Fs) (ip off n : Nat) : Except Halt (Nat × (Nat → UInt8)) := do
  let d := fs.content ip
  readiBlocks fs d (blocksOf (u32 off) (readiLen d (u32 off) (u32 n)))
  .ok (readiLen d (u32 off) (u32 n), fun k => d.data (u32 off + k))

end Xv6
