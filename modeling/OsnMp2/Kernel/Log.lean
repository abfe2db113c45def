import OsnMp2.Lib.BufferCache
import OsnMp2.Lib.Crashing
import OsnMp2.Lib.RedoLog

/-!
# The log of the file system

The functions of `log.c` over the buffer cache of `bio.c` and a disk that writes one block at a
time. A panic ends the run with the state as it is then; the list of the writes made so far is kept
beside the state, so that a crash is a run that stops after some of them.

A block is given by its 256 words of 32 bits, as the log header reads it. There is one device; a
buffer that has not been used since `binit` belongs to no block. Locks are left out: every function
here locks a buffer before it uses it and unlocks it when it is done, and the blocks that one of
them uses at a time are different ones.

## Main definitions

* `Block`, `LogHeader`, `LogState`: the state
* `bread`, `bwrite`, `brelse`, `bpin`, `bunpin`: the buffer cache
* `initlog`, `beginOp`, `logWrite`, `endOp`: the interface of the log
* `transaction`: the use of the log by one operation of the file system
* `redoLog`: where the log is on the disk
-/

namespace Xv6.Log

/-- `LOGBLOCKS`. -/
abbrev logBlocks : Nat := 30

/-- `MAXOPBLOCKS`. -/
abbrev maxOpBlocks : Nat := 10

/-- `NBUF`. -/
abbrev nbuf : Nat := 30

abbrev BlockNo := BitVec 32

/-- A block of `BSIZE` bytes, as words. -/
abbrev Block := Fin 256 → BitVec 32

/-- The word at a place. -/
def Block.word (b : Block) (i : Nat) : BitVec 32 := if h : i < 256 then b ⟨i, h⟩ else 0

/-- `struct logheader`, in memory. -/
structure LogHeader where
  n : Int := 0
  block : Nat → BlockNo := fun _ => 0

/-- The disk with the writes made so far, the buffer cache and `struct log`. -/
structure LogState where
  disk : BlockNo → Block
  writes : List (BlockNo × Block) := []
  bcache : BufferCache BlockNo Block
  start : BlockNo
  outstanding : Int := 0
  committing : Bool := false
  lh : LogHeader := {}

/-- The panics. -/
inductive Panic
  | noBuffers
  | committing
  | tooBig
  | outsideTrans
deriving DecidableEq

abbrev LogM := Crashing LogState Panic

/-! ## The buffer cache -/

/-- `bread`, with the contents of the block. -/
def bread (b : BlockNo) : LogM Block := do
  let s ← get
  match s.bcache.get b with
  | none => throw .noBuffers
  | some c =>
    -- The buffer is read from the disk only when it is not valid.
    modify fun s => { s with bcache := c.fill b (s.disk b) }
    return s.bcache.view s.disk b

/-- Change the contents of a buffer that is locked. -/
def setData (b : BlockNo) (v : Block) : LogM Unit :=
  modify fun s => { s with bcache := s.bcache.setData b v }

/-- `bwrite`: the block goes to the disk. -/
def bwrite (b : BlockNo) : LogM Unit :=
  modify fun s => { s with
    disk := Function.update s.disk b (s.bcache.view s.disk b)
    -- The order of the writes, for the points at which the machine may stop.
    writes := s.writes ++ [(b, s.bcache.view s.disk b)] }

def brelse (b : BlockNo) : LogM Unit := modify fun s => { s with bcache := s.bcache.put b }

def bpin (b : BlockNo) : LogM Unit := modify fun s => { s with bcache := s.bcache.reference b }

def bunpin (b : BlockNo) : LogM Unit := modify fun s => { s with bcache := s.bcache.dereference b }

/-! ## The log -/

/-- The log block `tail`. -/
def slot (start : BlockNo) (tail : Nat) : BlockNo := start + BitVec.ofNat 32 tail + 1

/-- The body of the loop of `install_trans`. -/
def installBody (recovering : Bool) (tail : Nat) (b : BlockNo) : LogM Unit := do
  let lbuf := slot (← get).start tail
  let data ← bread lbuf
  let _ ← bread b
  setData b data
  bwrite b
  -- No buffer is pinned at a recovery.
  if recovering = false then bunpin b
  brelse lbuf
  brelse b

/-- `install_trans`. -/
def installTrans (recovering : Bool) : LogM Unit := do
  let lh := (← get).lh
  Crashing.loop (fun tail => installBody recovering tail (lh.block tail)) lh.n.toNat 0

/-- The header that a block holds. -/
def decodeHead (b : Block) (old : LogHeader) : LogHeader :=
  { n := (b.word 0).toInt
    -- `read_head` writes `n` entries; the others keep what was there.
    block := fun i => if i < (b.word 0).toInt.toNat then b.word (i + 1) else old.block i }

/-- The block with the header in it: the words behind its last entry stay. -/
def encodeHead (lh : LogHeader) (b : Block) : Block := fun i =>
  if i.val = 0 then BitVec.ofInt 32 lh.n
  else if i.val - 1 < lh.n.toNat then lh.block (i.val - 1) else b i

/-- `read_head`. -/
def readHead : LogM Unit := do
  let start := (← get).start
  let buf ← bread start
  modify fun s => { s with lh := decodeHead buf s.lh }
  brelse start

/-- `write_head`. -/
def writeHead : LogM Unit := do
  let start := (← get).start
  let buf ← bread start
  let s ← get
  setData start (encodeHead s.lh buf)
  bwrite start
  brelse start

/-- Set `log.lh.n` to zero. -/
def clearHead : LogM Unit := modify fun s => { s with lh := { s.lh with n := 0 } }

/-- `recover_from_log`. -/
def recoverFromLog : LogM Unit := do
  readHead
  installTrans true
  clearHead
  -- The header on the disk is cleared after all installs.
  writeHead

/-- `initlog`, with `logstart` of the superblock. -/
def initlog (logstart : BlockNo) : LogM Unit := do
  modify fun s => { s with start := logstart }
  recoverFromLog

/-- `begin_op`: false when the caller has to sleep. -/
def beginOp : LogM Bool := do
  let s ← get
  if s.committing then return false
  -- Room for this operation and for all that are outstanding, at their maximum.
  else if (logBlocks : Int) < s.lh.n + (s.outstanding + 1) * maxOpBlocks then return false
  else
    modify fun s => { s with outstanding := s.outstanding + 1 }
    return true

/-- The body of the loop of `write_log`. -/
def writeLogBody (tail : Nat) (b : BlockNo) : LogM Unit := do
  let toBuf := slot (← get).start tail
  let _ ← bread toBuf
  let data ← bread b
  setData toBuf data
  bwrite toBuf
  brelse b
  brelse toBuf

/-- `write_log`. -/
def writeLog : LogM Unit := do
  let lh := (← get).lh
  Crashing.loop (fun tail => writeLogBody tail (lh.block tail)) lh.n.toNat 0

def commit : LogM Unit := do
  let lh := (← get).lh
  if 0 < lh.n then
    writeLog
    -- The transaction counts from this write on.
    writeHead
    installTrans false
    clearHead
    -- And this one erases it.
    writeHead
  else pure ()

/-- The first part of `end_op`, under the lock: true when the caller commits. -/
def endOpStart : LogM Bool := do
  modify fun s => { s with outstanding := s.outstanding - 1 }
  let s ← get
  -- The count has gone down before the test, as in the source.
  if s.committing then throw .committing
  else if s.outstanding = 0 then
    modify fun s => { s with committing := true }
    return true
  else return false

/-- The last part of `end_op`, under the lock. -/
def endOpFinish : LogM Unit := modify fun s => { s with committing := false }

/-- `end_op`. -/
def endOp : LogM Unit := do
  if ← endOpStart then
    commit
    endOpFinish
  else pure ()

/-- The place of the block in the header, or the place behind the last one. -/
def findBlock (lh : LogHeader) (b : BlockNo) : Nat :=
  ((List.range lh.n.toNat).find? fun i => lh.block i = b).getD lh.n.toNat

/-- `log_write`. -/
def logWrite (b : BlockNo) : LogM Unit := do
  let s ← get
  -- The log is full for a block that is in it, too: the search comes after the test.
  if (logBlocks : Int) ≤ s.lh.n then throw .tooBig
  else if s.outstanding < 1 then throw .outsideTrans
  else
    let i := findBlock s.lh b
    modify fun s => { s with lh := { s.lh with block := Function.update s.lh.block i b } }
    -- A new block: its buffer must stay until the commit has installed it.
    if (i : Int) = s.lh.n then
      bpin b
      modify fun s => { s with lh := { s.lh with n := s.lh.n + 1 } }
    else pure ()

/-- The typical use of the log: a block is read, changed and logged. -/
def update (w : BlockNo × Block) : LogM Unit := do
  let _ ← bread w.1
  setData w.1 w.2
  logWrite w.1
  brelse w.1

/-- The updates of an operation, one after the other. -/
def updates : List (BlockNo × Block) → LogM Unit
  | [] => pure ()
  | w :: ws => do
    update w
    updates ws

/-- **A transaction**: an operation that makes updates between `begin_op` and `end_op`. -/
def transaction (ws : List (BlockNo × Block)) : LogM Unit := do
  if ← beginOp then
    updates ws
    endOp
  else pure ()

/-! ## Where the log is -/

/-- The blocks that a header names. -/
def entries (b : Block) : List BlockNo := (List.range (b.word 0).toInt.toNat).map fun i =>
    b.word (i + 1)

theorem slot_inj (start : BlockNo) (i j : Nat) (hi : i < logBlocks) (hj : j < logBlocks)
    (h : slot start i = slot start j) : i = j := by
  have hi' : i < 30 := hi
  have hj' : j < 30 := hj
  unfold slot at h
  have h' : BitVec.ofNat 32 i = BitVec.ofNat 32 j := by bv_omega
  have := congrArg BitVec.toNat h'
  simp only [BitVec.toNat_ofNat] at this
  omega

theorem slot_ne (start : BlockNo) (i : Nat) (hi : i < logBlocks) : slot start i ≠ start := by
  have hi' : i < 30 := hi
  unfold slot
  intro h
  have h' : BitVec.ofNat 32 i + 1#32 = 0#32 := by bv_omega
  have := congrArg BitVec.toNat h'
  simp at this
  omega

/-- The log on the disk: its header is at `start`, and the log blocks are behind it. -/
def redoLog (start : BlockNo) : RedoLog BlockNo Block where
  header := start
  slot := slot start
  size := logBlocks
  entries := entries
  slot_inj := slot_inj start
  slot_ne := slot_ne start

end Xv6.Log
