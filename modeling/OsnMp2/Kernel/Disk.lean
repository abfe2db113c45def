import OsnMp2.Kernel.ExecInv

/-!
# Inodes and the blocks of the disk

The block allocator, the inodes, their contents and the directories of `fs.c`. A disk has a
superblock, the bitmap of the used blocks, the inodes, and the data blocks; the kernel keeps copies
of inodes in its table. A call of this module is a whole call of the kernel, with the inode locked
for it, so that the sleep-locks are left out; blocks are read and written through the buffer cache.

A copy from or to user memory may fail: it then has copied the bytes in front of the first one that
the user may not use. `writei` leaves these in the buffer without a `log_write`, so a block has two
values, the one in the cache and the one that the log or the disk has. When the buffer is recycled,
the second one is all there is. A call uses each block of a file once, and directories are written
from kernel memory, so a buffer that is recycled in the middle of a call may as well be recycled
before it or behind it.

## Main definitions

* `State`: the disk and the table of inodes
* `balloc`, `bfree`: the allocator
* `iget`, `ilock`, `iupdate`, `iput`, `ialloc`: the inodes
* `bmap`, `itrunc`, `readi`, `writei`: their contents
* `dirlookup`, `dirlink`: directories
* `Op`, `Event`, `Step`: what the rest of the kernel asks of them, and the recycling of buffers
-/

namespace Xv6.Disk

/-- `NINDIRECT`. -/
abbrev nIndirect : Nat := 256

/-- `MAXFILE`. -/
abbrev maxFile : Nat := nDirect + nIndirect

/-- `NINODE`. -/
abbrev nInode : Nat := 50

/-- `BPB`. -/
abbrev bpb : Nat := bSize * 8

/-- `DIRSIZ`. -/
abbrev dirSiz : Nat := 14

/-- `sizeof(struct dirent)`. -/
abbrev direntSize : Nat := 16

/-- The fields of the superblock that this module reads. -/
structure Superblock where
  size : Nat
  ninodes : Nat
  bmapstart : Nat
  size_lt : size < 2 ^ 31

/-- The data blocks begin behind the bitmap, as `mkfs` lays out a disk. -/
def Superblock.dataStart (sb : Superblock) : Nat := sb.bmapstart + (sb.size / bpb + 1)

/-- The bytes of a block. -/
abbrev Block := Nat → UInt8

/-- An entry of an indirect block. -/
def word (a : Block) (j : Nat) : Nat := le a (4 * j) 4

/-- An indirect block with an entry written. -/
def setWord (a : Block) (j addr : Nat) : Block := writeAt a (4 * j) (leBytes addr 4)

/-- A place in `addrs`; the last one is that of the indirect block. -/
abbrev AddrIdx := Fin (nDirect + 1)

/-- The last place in `addrs`. -/
def indirect : AddrIdx := ⟨nDirect, by decide⟩

/-- `struct dinode`. -/
structure Dinode where
  type : FileType := .free
  major : Int16 := 0
  minor : Int16 := 0
  nlink : Int16 := 0
  size : Nat := 0
  addrs : AddrIdx → Nat := fun _ => 0

/-- `struct inode`; the fields copied from the disk count when `valid`. -/
structure Inode where
  inum : Nat := 0
  ref : Int := 0
  valid : Bool := false
  dinode : Dinode := {}

/-- A place in the table of inodes, which stands for the pointer `ip`. -/
abbrev Slot := Fin nInode

/-- The disk, and the table of inodes. The inodes beyond the inode blocks are free ones. A block is
`block` when it is read through the cache; `disk` is without what was not logged. -/
structure State where
  sb : Superblock
  used : Nat → Bool
  dinode : Nat → Dinode
  block : Nat → Block
  inode : Slot → Inode
  disk : Nat → Block := block

/-- The panics of this module. -/
inductive Halt
  | freeingFree | noInodes | ilock | noType | outOfRange | lookupNotDir | lookupRead | linkRead
  | unlinkWrite
deriving DecidableEq, Repr

abbrev FsM := Halting State Halt

/-- The inode at a place of the table. -/
def getInode (k : Slot) : FsM Inode := do
  let st ← get
  return st.inode k

def State.setInode (st : State) (k : Slot) (ip : Inode) : State :=
  { st with inode := Function.update st.inode k ip }

section SetInode

variable (st : State) (k : Slot) (ip : Inode)

@[simp] theorem setInode_self : (st.setInode k ip).inode k = ip := Function.update_self ..

@[simp] theorem setInode_of_ne {k' : Slot} (h : k' ≠ k) :
    (st.setInode k ip).inode k' = st.inode k' :=
  Function.update_of_ne h ..

@[simp] theorem setInode_sb : (st.setInode k ip).sb = st.sb := rfl

@[simp] theorem setInode_used : (st.setInode k ip).used = st.used := rfl

@[simp] theorem setInode_dinode : (st.setInode k ip).dinode = st.dinode := rfl

@[simp] theorem setInode_block : (st.setInode k ip).block = st.block := rfl

@[simp] theorem setInode_disk : (st.setInode k ip).disk = st.disk := rfl

end SetInode

/-- Change the inode at a place of the table. -/
def updInode (k : Slot) (f : Inode → Inode) : FsM Unit :=
  modify fun st => st.setInode k (f (st.inode k))

/-- Change the bytes of a block, and log its buffer. -/
def updBlock (b : Nat) (f : Block → Block) : FsM Unit :=
  modify fun st =>
    { st with
      block := Function.update st.block b (f (st.block b))
      disk := Function.update st.disk b (f (st.block b)) }

/-- Change the bytes of a buffer, and do not log it. -/
def updBuffer (b : Nat) (f : Block → Block) : FsM Unit :=
  modify fun st => { st with block := Function.update st.block b (f (st.block b)) }

/-- The buffers of the blocks of `gone` are recycled: what was not logged of them is gone. -/
def State.recycle (st : State) (gone : Nat → Bool) : State :=
  { st with block := fun b => if gone b then st.disk b else st.block b }

/-! ## The allocator -/

/-- The first free block, as the bitmap has it. -/
def State.freeBlock (st : State) : Option Nat := (List.range st.sb.size).find? fun b => !st.used b

/-- The state with the free block `b` marked and zeroed. -/
def State.give (st : State) (b : Nat) : State :=
  { st with
    used := Function.update st.used b true
    block := Function.update st.block b fun _ => 0
    disk := Function.update st.disk b fun _ => 0 }

/-- Allocate a zeroed block: `0` when there is none. -/
def balloc : FsM Nat := do
  let st ← get
  match st.freeBlock with
  | some b =>
    set (st.give b)
    return b
  | none => return 0

/-- Free a block. -/
def bfree (b : Nat) : FsM Unit := do
  let st ← get
  -- The contents of the block stay.
  if st.used b then set { st with used := Function.update st.used b false }
  else Halting.halt .freeingFree

/-! ## Inodes -/

/-- Find the inode in the table, or take a place for it. -/
def iget (inum : Nat) : FsM Slot := do
  let st ← get
  match (List.finRange nInode).find? fun k => 0 < (st.inode k).ref && (st.inode k).inum == inum with
  | some k =>
    updInode k fun ip => { ip with ref := ip.ref + 1 }
    return k
  | none =>
    -- The inode is not read yet: `valid` is false until `ilock`.
    match (List.finRange nInode).find? fun k => (st.inode k).ref == 0 with
    | some k =>
      updInode k fun ip => { ip with inum := inum, ref := 1, valid := false }
      return k
    | none => Halting.halt .noInodes

/-- Allocate an inode, and take a reference to it. -/
def ialloc (type : FileType) : FsM (Option Slot) := do
  let st ← get
  -- Inode number 0 is never given out.
  match (List.range' 1 (st.sb.ninodes - 1)).find? fun inum => (st.dinode inum).type = .free with
  | some inum =>
    -- `memset` clears the inode on the disk, whatever was left in it.
    set { st with dinode := Function.update st.dinode inum { type := type } }
    let k ← iget inum
    return some k
  | none => return none

/-- Write the copy of an inode to the disk. -/
def iupdate (k : Slot) : FsM Unit :=
  modify fun st =>
    { st with dinode := Function.update st.dinode (st.inode k).inum (st.inode k).dinode }

def idup (k : Slot) : FsM Unit := updInode k fun ip => { ip with ref := ip.ref + 1 }

/-- Lock an inode, and read it from the disk if necessary. -/
def ilock (k : Slot) : FsM Unit := do
  let st ← get
  let ip := st.inode k
  if ip.ref < 1 then Halting.halt .ilock
  else if ip.valid then pure ()
  else
    -- The copy is valid before the panic.
    set (st.setInode k { ip with valid := true, dinode := st.dinode ip.inum })
    if (st.dinode ip.inum).type = .free then Halting.halt .noType else pure ()

/-! ## The blocks of an inode -/

/-- The block at a place of `addrs`, allocated if necessary. -/
def slotBlock (k : Slot) (i : AddrIdx) : FsM Nat := do
  let ip ← getInode k
  if ip.dinode.addrs i ≠ 0 then return ip.dinode.addrs i
  else
    let addr ← balloc
    -- A full disk changes nothing in the inode.
    if addr = 0 then return 0
    else
      -- Only the copy in memory has the new address until `iupdate`.
      updInode k fun ip =>
        { ip with dinode := { ip.dinode with addrs := Function.update ip.dinode.addrs i addr } }
      return addr

/-- The block number of the `bn`-th block of an inode, allocated if necessary: `0` when the disk is
full. -/
def bmap (k : Slot) (bn : Nat) : FsM Nat :=
  if h : bn < nDirect then slotBlock k ⟨bn, Nat.lt_succ_of_lt h⟩
  else if bn - nDirect < nIndirect then do
    -- The indirect block stays allocated when the block itself cannot be.
    let addr ← slotBlock k indirect
    if addr = 0 then return 0
    else
      let st ← get
      let e := word (st.block addr) (bn - nDirect)
      if e ≠ 0 then return e
      else
        let e ← balloc
        if e = 0 then return 0
        else
          -- An entry of the indirect block goes to the log at once.
          updBlock addr fun a => setWord a (bn - nDirect) e
          return e
  else Halting.halt .outOfRange

/-- Free the block at a place of `addrs`. -/
def truncAddr (k : Slot) (i : AddrIdx) : FsM Unit := do
  let ip ← getInode k
  if ip.dinode.addrs i ≠ 0 then
    bfree (ip.dinode.addrs i)
    updInode k fun ip =>
      { ip with dinode := { ip.dinode with addrs := Function.update ip.dinode.addrs i 0 } }
  else pure ()

/-- The loop over the direct blocks. -/
def truncDirect (k : Slot) : List AddrIdx → FsM Unit
  | [] => pure ()
  | i :: is => do
    truncAddr k i
    truncDirect k is

/-- Free the block of an entry of an indirect block. -/
def truncEntry (a : Block) (j : Nat) : FsM Unit := if word a j ≠ 0 then bfree (word a j)
    else pure ()

/-- The loop over the entries of an indirect block. -/
def truncEntries (a : Block) : List Nat → FsM Unit
  | [] => pure ()
  | j :: js => do
    truncEntry a j
    truncEntries a js

/-- The indirect block, and the blocks of its entries. -/
def truncIndirect (k : Slot) : FsM Unit := do
  let st ← get
  let addr := (st.inode k).dinode.addrs indirect
  if addr ≠ 0 then
    -- The entries are read before their block is freed, and they are not cleared.
    truncEntries (st.block addr) (List.range nIndirect)
    truncAddr k indirect
  else pure ()

/-- The direct places of `addrs`. -/
def directs : List AddrIdx := (List.finRange (nDirect + 1)).filter (· < indirect)

/-- Discard the contents of an inode. -/
def itrunc (k : Slot) : FsM Unit := do
  truncDirect k directs
  truncIndirect k
  updInode k fun ip => { ip with dinode := { ip.dinode with size := 0 } }
  iupdate k

/-- Drop a reference: the last one to an inode with no links frees it. -/
def iput (k : Slot) : FsM Unit := do
  let ip ← getInode k
  if ip.ref = 1 ∧ ip.valid = true ∧ ip.dinode.nlink = 0 then
    -- The contents go first, and the type is written in a second `iupdate`.
    itrunc k
    updInode k fun ip => { ip with dinode := { ip.dinode with type := .free } }
    iupdate k
    updInode k fun ip => { ip with valid := false }
  else pure ()
  updInode k fun ip => { ip with ref := ip.ref - 1 }

/-! ## Reading and writing -/

/-- The copy of the bytes up to the `n`-th one meets the first byte that the user may not use. -/
def faults (fault : Option Nat) (n : Nat) : Bool := fault.any (· < n)

/-- How many of the bytes up to the `n`-th one are copied. -/
def copied (fault : Option Nat) (n : Nat) : Nat := (fault.getD n).min n

/-- The loop of `readi`; each turn reads at least one byte. -/
def readLoop (k : Slot) (fault : Option Nat) (n : Nat) : Nat → Nat → Nat → FsM (Option (List UInt8))
  | 0, _, _ => pure (some [])
  | turns + 1, tot, off =>
    if tot < n then do
      let addr ← bmap k (off / bSize)
      -- `readi` allocates, too: a hole in the file is filled, or ends the read.
      if addr = 0 then return some []
      else
        let m := (n - tot).min (bSize - off % bSize)
        let st ← get
        -- `tot = -1`, whatever has been copied by then.
        if faults fault (tot + m) then return none
        else
          let rest ← readLoop k fault n turns (tot + m) (off + m)
          return rest.map ((List.range m).map (fun i => st.block addr (off % bSize + i)) ++ ·)
    else pure (some [])

/-- Read `n` bytes from `off` on: `none` when they cannot be copied to the user. -/
def readi (k : Slot) (fault : Option Nat) (off n : Nat) : FsM (Option (List UInt8)) := do
  let ip ← getInode k
  if ip.dinode.size < off ∨ u32 (off + n) < off then return some []
  else
    -- Cut at the end of the file.
    let n := if ip.dinode.size < off + n then ip.dinode.size - off else n
    readLoop k fault n n 0 off

/-- The loop of `writei`, with the values of `tot` and `off` behind it; each turn writes at least
one byte. The bytes that a failing copy has written stay in the buffer. -/
def writeLoop (k : Slot) (fault : Option Nat) (src : List UInt8) : Nat → Nat → Nat → FsM (Nat × Nat)
  | 0, tot, off => pure (tot, off)
  | turns + 1, tot, off =>
    if tot < src.length then do
      let addr ← bmap k (off / bSize)
      -- The disk is full: what was written by then counts.
      if addr = 0 then return (tot, off)
      else
        let m := (src.length - tot).min (bSize - off % bSize)
        let data := (src.take (copied fault (tot + m))).drop tot
        if faults fault (tot + m) then
          -- `either_copyin` fails behind the bytes it has copied, and the buffer is released
          -- unlogged.
          updBuffer addr fun a => writeAt a (off % bSize) data
          return (tot, off)
        else
          updBlock addr fun a => writeAt a (off % bSize) data
          writeLoop k fault src turns (tot + m) (off + m)
    else pure (tot, off)

/-- Write the bytes `src` from `off` on: the number of bytes written, or `-1`. -/
def writei (k : Slot) (fault : Option Nat) (src : List UInt8) (off : Nat) : FsM Int := do
  let ip ← getInode k
  if ip.dinode.size < off ∨ u32 (off + src.length) < off then return -1
  else if maxFile * bSize < u32 (off + src.length) then return -1
  else
    let (tot, off) ← writeLoop k fault src src.length 0 off
    -- The size grows up to the last byte that counts.
    updInode k fun ip =>
      if ip.dinode.size < off then { ip with dinode := { ip.dinode with size := off } } else ip
    -- Also when nothing was written: `bmap` may have added a block.
    iupdate k
    return tot

/-! ## Directories -/

/-- The string in the bytes of a name. -/
def cstr (name : List UInt8) : List UInt8 := (name.take dirSiz).takeWhile (· ≠ 0)

/-- The bytes of an entry. -/
def dirent (inum : Nat) (name : List UInt8) : List UInt8 :=
  leBytes inum 2 ++ cstr name ++ List.replicate (dirSiz - (cstr name).length) 0

/-- The `inum` of an entry. -/
def direntInum (de : List UInt8) : Nat := le (de.getD · 0) 0 2

/-- The name of an entry. -/
def direntName (de : List UInt8) : List UInt8 := cstr (de.drop 2)

/-- The offsets of the entries in a directory of a size. -/
def direntOffs (size : Nat) : List Nat :=
  (List.range ((size + (direntSize - 1)) / direntSize)).map (direntSize * ·)

/-- The first entry that passes the test, with its offset; a read that fails panics. -/
def findDirent (k : Slot) (panics : Halt) (test : List UInt8 → Bool) :
    List Nat → FsM (Option (Nat × List UInt8))
  | [] => pure none
  | off :: offs => do
    let r ← readi k none off direntSize
    match r with
    | some de =>
      if de.length ≠ direntSize then Halting.halt panics
      else if test de then return some (off, de)
      else findDirent k panics test offs
    | none => Halting.halt panics

/-- Look for an entry in a directory: the inode it names, and its offset. -/
def dirlookup (k : Slot) (name : List UInt8) : FsM (Option (Slot × Nat)) := do
  let dp ← getInode k
  if dp.dinode.type ≠ .dir then Halting.halt .lookupNotDir
  else
    let r ← findDirent k .lookupRead
      (fun de => direntInum de ≠ 0 && cstr name == direntName de) (direntOffs dp.dinode.size)
    match r with
    | some (off, de) =>
      -- The caller gets a reference to the inode.
      let ip ← iget (direntInum de)
      return some (ip, off)
    | none => return none

/-- Write a new entry into a directory: `0`, or `-1` when the name is present or the disk is
full. -/
def dirlink (k : Slot) (name : List UInt8) (inum : Nat) : FsM Int := do
  let r ← dirlookup k name
  match r with
  | some (ip, _) =>
    -- `dirlookup` has taken a reference.
    iput ip
    return -1
  | none =>
    let dp ← getInode k
    let offs := direntOffs dp.dinode.size
    let r ← findDirent k .linkRead (fun de => direntInum de = 0) offs
    -- Without a free entry the new one goes behind the last.
    let n ← writei k none (dirent inum name) ((r.map Prod.fst).getD (direntSize * offs.length))
    return if n = direntSize then 0 else -1

/-- The part of `sys_unlink` that erases an entry. -/
def eraseDirent (k : Slot) (off : Nat) : FsM Unit := do
  let n ← writei k none (List.replicate direntSize 0) off
  if n = direntSize then pure () else Halting.halt .unlinkWrite

/-! ## What the rest of the kernel asks -/

/-- The calls of the rest of the kernel, those on the contents of an inode with the inode locked for
the call. `setMeta` writes the fields that system calls change themselves. -/
inductive Op
  | ialloc (type : FileType)
  | iget (inum : Nat)
  | idup (k : Slot)
  | ilock (k : Slot)
  | iput (k : Slot)
  | setMeta (k : Slot) (major minor nlink : Int16)
  | readi (k : Slot) (fault : Option Nat) (off n : Nat)
  | writei (k : Slot) (fault : Option Nat) (src : List UInt8) (off : Nat)
  | itrunc (k : Slot)
  | dirlookup (k : Slot) (name : List UInt8)
  | dirlink (k : Slot) (name : List UInt8) (inum : Nat)
  | eraseDirent (k : Slot) (off : Nat)

/-- What the callers see to: a new inode gets a type, and only references that are held
are copied or dropped. -/
def Op.Allowed (st : State) : Op → Prop
  | .ialloc type => type ≠ .free
  | .idup k | .iput k => 1 ≤ (st.inode k).ref
  | _ => True

/-- Run a call. -/
def Op.exec : Op → FsM Unit
  | .ialloc type => do let _ ← Disk.ialloc type
  | .iget inum => do let _ ← Disk.iget inum
  | .idup k => Disk.idup k
  | .ilock k => Disk.ilock k
  | .iput k => Disk.iput k
  | .setMeta k major minor nlink => do
    Disk.ilock k
    updInode k fun ip =>
      { ip with dinode := { ip.dinode with major := major, minor := minor, nlink := nlink } }
    iupdate k
  | .readi k fault off n => do
    Disk.ilock k
    let _ ← Disk.readi k fault off n
  | .writei k fault src off => do
    Disk.ilock k
    let _ ← Disk.writei k fault src off
  | .itrunc k => do
    Disk.ilock k
    Disk.itrunc k
  | .dirlookup k name => do
    Disk.ilock k
    let _ ← Disk.dirlookup k name
  | .dirlink k name inum => do
    Disk.ilock k
    let _ ← Disk.dirlink k name inum
  | .eraseDirent k off => do
    Disk.ilock k
    Disk.eraseDirent k off

/-- What happens to the file system: a call, or buffers are recycled. -/
inductive Event
  | call (op : Op)
  | recycle (gone : Nat → Bool)

/-- A call that returns, or a recycling. -/
def Step (st : State) : Event → State → Prop
  | .call op, st' => op.Allowed st ∧ op.exec st = .ok ((), st')
  | .recycle gone, st' => st' = st.recycle gone

end Xv6.Disk
