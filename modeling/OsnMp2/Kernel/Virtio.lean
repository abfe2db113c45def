import OsnMp2.Lib.Simulation
import Mathlib.Logic.Function.Basic
import Mathlib.Algebra.Group.Nat.Defs

/-!
# The disk driver

`virtio_disk_rw` and `virtio_disk_intr` share eight descriptors and two rings with the device. The
processes that call the driver, the interrupt handler and the device take their steps in any order:
the driver's steps are the parts of its functions between which `vdisk_lock` is given back or the
device may look, and the device takes requests from the first ring, serves them and puts them on the
second ring as it likes, and may fail.

A call is known by its buffer: the callers hold the sleeplock of the buffer.

## Main definitions

* `Disk`: `struct disk` with its descriptors and rings
* `State`: the driver, the buffers, the processes and the device
* `exec`: what happens at an event
* `Atomic.Step`: a disk that serves each request in one step
-/

set_option linter.unusedSectionVars false

namespace Xv6.Virtio

/-- `NUM`. -/
def num : Nat := 8

/-- `VRING_DESC_F_NEXT`. -/
def descFNext : Nat := 1

/-- `VRING_DESC_F_WRITE`. -/
def descFWrite : Nat := 2

/-- `VIRTIO_BLK_T_IN`. -/
def blkTIn : Nat := 0

/-- `VIRTIO_BLK_T_OUT`. -/
def blkTOut : Nat := 1

/-- What a descriptor can point to: `disk.ops[i]`, the data of a buffer, `disk.info[i].status`. -/
inductive Addr (B : Type)
  | null
  | op (i : Nat)
  | data (b : B)
  | status (i : Nat)
deriving DecidableEq

/-- `struct virtq_desc`. -/
structure Desc (B : Type) where
  addr : Addr B := .null
  len : Nat := 0
  flags : Nat := 0
  next : Nat := 0

/-- `struct virtio_blk_req`. -/
structure Req where
  type : Nat := 0
  reserved : Nat := 0
  sector : Nat := 0

/-- `disk.info[i]`. -/
structure Info (B : Type) where
  b : Option B := none
  status : Nat := 0

/-- `struct virtq_avail` and `struct virtq_used`: a counter of 16 bits and a ring of heads of
chains. -/
structure Queue where
  idx : Nat := 0
  ring : Nat → Nat := fun _ => 0

/-- `struct disk`. -/
structure Disk (B : Type) where
  desc : Nat → Desc B
  avail : Queue
  used : Queue
  free : Nat → Bool
  usedIdx : Nat
  info : Nat → Info B
  ops : Nat → Req

/-- `struct buf`, as far as the driver uses it; a block is two sectors. -/
structure Buf (S : Type) where
  blockno : Nat
  disk : Bool
  data : S × S

inductive Panic
  | freeDesc1
  | freeDesc2
  | status
  /-- `disk.info[id].b` is null -/
  | fault
  /-- the loop of `free_chain` goes round more than `NUM` times -/
  | chain
deriving DecidableEq

/-- The local variable `idx` of `virtio_disk_rw`. -/
structure Idx where
  head : Nat
  data : Nat
  status : Nat
deriving DecidableEq

def Idx.toList (idx : Idx) : List Nat := [idx.head, idx.data, idx.status]

section

variable {B S : Type} [DecidableEq B]

/-! ## Descriptors -/

/-- `alloc_desc()`. -/
def allocDesc (d : Disk B) : Option (Nat × Disk B) :=
  ((List.range num).find? d.free).map fun i =>
    (i, { d with free := Function.update d.free i false })

/-- `free_desc(i)`. -/
def freeDesc (d : Disk B) (i : Nat) : Except Panic (Disk B) :=
  if num ≤ i then .error .freeDesc1
  else if d.free i then .error .freeDesc2
  else .ok { d with
    desc := Function.update d.desc i {}
    free := Function.update d.free i true }

/-- `free_chain(i)`. -/
def freeChain : Nat → Disk B → Nat → Except Panic (Disk B)
  | 0, _, _ => .error .chain
  | n + 1, d, i => do
    -- Flags and next are read before `free_desc` clears them.
    let flag := (d.desc i).flags
    let nxt := (d.desc i).next
    let d ← freeDesc d i
    if flag &&& descFNext ≠ 0 then freeChain n d nxt else pure d

/-- `alloc3_desc(idx)`. -/
def alloc3Desc (d : Disk B) : Except Panic (Option Idx × Disk B) :=
  match allocDesc d with
  | none => .ok (none, d)
  | some (i₀, d₀) =>
    match allocDesc d₀ with
    -- All or nothing: what was taken is given back.
    | none => (freeDesc d₀ i₀).map fun d => (none, d)
    | some (i₁, d₁) =>
      match allocDesc d₁ with
      | none => (freeDesc d₁ i₀ >>= fun d => freeDesc d i₁).map fun d => (none, d)
      | some (i₂, d₂) => .ok (some ⟨i₀, i₁, i₂⟩, d₂)

/-- The sector of a block; `blockno` has 32 bits. -/
def sectorOf (blockno : Nat) : Nat := blockno * (1024 / 512) % 2 ^ 32

/-- `virtio_disk_rw`, where it formats the descriptors and puts the chain on the ring. -/
def format (d : Disk B) (b : B) (blockno : Nat) (write : Bool) (idx : Idx) : Disk B :=
  { d with
    -- The header of the request lies beside the descriptor that points to it.
    ops := Function.update d.ops idx.head
      { type := if write then blkTOut else blkTIn
        reserved := 0
        sector := sectorOf blockno }
    desc := Function.update (Function.update (Function.update d.desc
      idx.head { addr := .op idx.head, len := 16, flags := descFNext, next := idx.data })
      idx.data {
        addr := .data b
        len := 1024
        flags := (if write then 0 else descFWrite) ||| descFNext
        next := idx.status })
      idx.status { addr := .status idx.head, len := 1, flags := descFWrite, next := 0 }
    -- `0xff` is neither success nor a failure; the device writes another value.
    info := Function.update d.info idx.head { b := some b, status := 0xff }
    -- The index goes up in a step of its own, behind the barrier.
    avail := { d.avail with ring := Function.update d.avail.ring (d.avail.idx % num) idx.head } }

/-! ## The device -/

/-- The two sectors of a block. -/
def getBlock (sectors : Nat → S) (sector : Nat) : S × S := (sectors sector, sectors (sector + 1))

def putBlock (sectors : Nat → S) (sector : Nat) (data : S × S) : Nat → S :=
  Function.update (Function.update sectors sector data.1) (sector + 1) data.2

/-- The device writes the status byte `disk.info[j].status`. -/
def Disk.setStatus (d : Disk B) (j status : Nat) : Disk B :=
  let info := { d.info j with status := status }
  { d with info := Function.update d.info j info }

/-- A request, as the device reads it from a chain of descriptors. -/
structure Chain (B : Type) where
  write : Bool
  sector : Nat
  b : B
  status : Nat

/-- The chain that begins with the descriptor `h`: a header to read, a block to read or to write,
and a status byte to write. -/
def readChain (d : Disk B) (h : Nat) : Option (Chain B) :=
  let d₀ := d.desc h
  let d₁ := d.desc d₀.next
  let d₂ := d.desc d₁.next
  match d₀.addr, d₁.addr, d₂.addr with
  | .op i, .data b, .status j =>
    -- The device writes to the block of a read, and reads the block of a write.
    if d₀.flags = descFNext ∧ d₀.len = 16 ∧ d₁.len = 1024 ∧ d₂.flags = descFWrite ∧ d₂.len = 1 ∧
        ((d.ops i).type = blkTIn ∧ d₁.flags = descFWrite ||| descFNext ∨
          (d.ops i).type = blkTOut ∧ d₁.flags = descFNext) then
      some {
        write := decide ((d.ops i).type = blkTOut)
        sector := (d.ops i).sector
        b := b
        status := j }
    else none
  | _, _, _ => none

/-! ## The state -/

/-- A call of `virtio_disk_rw`, or that there is none: it has no descriptors yet; it has put its
chain on the ring and not yet told the device; it waits for its buffer. -/
inductive Phase
  | idle
  | asked (write : Bool)
  | formatted (write : Bool) (idx : Idx)
  | waiting (write : Bool) (idx : Idx)
deriving DecidableEq

/-- Who holds `vdisk_lock` between two steps. -/
inductive Holder (B : Type)
  | rw (b : B)
  | intr
deriving DecidableEq

/-- The driver, the buffers and the calls; the sectors, and of the device the requests that it has
seen, that it has not served yet, and that it has served. -/
structure State (B S : Type) where
  disk : Disk B
  buf : B → Buf S
  phase : B → Phase
  lock : Option (Holder B)
  sectors : Nat → S
  seen : Nat
  taken : List Nat
  served : List Nat

namespace State

variable (s : State B S)

def setPhase (b : B) (phase : Phase) :
    State B S := { s with phase := Function.update s.phase b phase }

def setBuf (b : B) (buf : Buf S) : State B S := { s with buf := Function.update s.buf b buf }

/-- `virtio_disk_rw`, up to where it tells the device of the chain, or sleeps for descriptors. -/
def start (b : B) (write : Bool) : Except Panic (State B S) :=
  (alloc3Desc s.disk).map fun (idx, d) =>
    match idx with
    -- Asleep on `disk.free[0]`: the lock is given back, and the loop tries again.
    | none => { s with disk := d }
    | some idx =>
      ({ s with
        disk := format d b (s.buf b).blockno write idx
        lock := some (.rw b) }.setBuf b { s.buf b with disk := true }).setPhase b
          (.formatted write idx)

/-- `disk.avail->idx += 1`, up to where it sleeps for the buffer. -/
def notify (b : B) (write : Bool) (idx : Idx) : State B S :=
  { s with
    disk := { s.disk with avail := { s.disk.avail with idx := (s.disk.avail.idx + 1) % 2 ^ 16 } }
    -- `sleep` gives the lock back while the request is under way.
    lock := none }.setPhase b (.waiting write idx)

/-- The end of `virtio_disk_rw`. -/
def finish (b : B) (idx : Idx) : Except Panic (State B S) :=
  -- The entry is cleared before the chain is free for others.
  let info := Function.update s.disk.info idx.head { s.disk.info idx.head with b := none }
  (freeChain num { s.disk with info := info } idx.head).map fun d =>
    { s with disk := d }.setPhase b .idle

/-- A round of the loop of `virtio_disk_intr`. -/
def reap : Except Panic (State B S) :=
  -- The ring holds the head of the chain that was served.
  let id := s.disk.used.ring (s.disk.usedIdx % num)
  -- Any status but zero is a failure, and stops the kernel.
  if (s.disk.info id).status ≠ 0 then .error .status
  else
    match (s.disk.info id).b with
    | none => .error .fault
    | some b =>
      .ok ({ s with disk := { s.disk with usedIdx := (s.disk.usedIdx + 1) % 2 ^ 16 } }.setBuf b
        { s.buf b with disk := false })

/-- The device takes a request from the ring. -/
def fetch : State B S :=
  { s with
    seen := (s.seen + 1) % 2 ^ 16
    taken := s.taken ++ [s.disk.avail.ring (s.seen % num)] }

/-- The device has served a request, or has failed. -/
def transfer (h : Nat) (chain : Chain B) (ok : Bool) : State B S :=
  let s := { s with
    -- In any order: the device need not serve what it took first.
    taken := s.taken.erase h
    served := s.served ++ [h]
    disk := s.disk.setStatus chain.status (if ok then 0 else 1) }
  if ok then
    if chain.write then { s with sectors := putBlock s.sectors chain.sector (s.buf chain.b).data }
    else
      s.setBuf chain.b { s.buf chain.b with data := getBlock s.sectors chain.sector }
  -- A request that fails moves no data.
  else s

/-- The device puts a request that it has served on the ring. -/
def post (h : Nat) : State B S :=
  { s with
    served := s.served.erase h
    disk := { s.disk with used :=
      { idx := (s.disk.used.idx + 1) % 2 ^ 16
        ring := Function.update s.disk.used.ring (s.disk.used.idx % num) h } } }

variable {s} {b b' : B}

@[simp] theorem buf_setBuf {buf : Buf S} : (s.setBuf b buf).buf b = buf := Function.update_self ..

theorem buf_setBuf_of_ne {buf : Buf S} (h : b' ≠ b) : (s.setBuf b buf).buf b' = s.buf b' :=
  Function.update_of_ne h ..

@[simp] theorem phase_setPhase {phase : Phase} : (s.setPhase b phase).phase b = phase :=
  Function.update_self ..

theorem phase_setPhase_of_ne {phase : Phase} (h : b' ≠ b) :
    (s.setPhase b phase).phase b' = s.phase b' :=
  Function.update_of_ne h ..

end State

/-! ## Events -/

/-- What happens: the steps of a call; those of the interrupt handler; those of the device; and a
process that has a buffer gives it another block or other data. -/
inductive Event (B S : Type)
  | call (b : B) (write : Bool)
  | start (b : B)
  | notify (b : B)
  | finish (b : B)
  | intr
  | reap
  | intrEnd
  | fetch
  | transfer (h : Nat) (b : B) (ok : Bool)
  | post (h : Nat)
  | edit (b : B) (blockno : Nat) (data : S × S)

/-- The state after an event, or the panic, where the event can happen. -/
def exec (s : State B S) : Event B S → Option (Except Panic (State B S))
  | .call b write => if s.phase b = .idle then some (.ok (s.setPhase b (.asked write))) else none
  -- Also the wakeup for descriptors leads here; the loop tests again.
  | .start b =>
    match s.phase b with
    | .asked write => if s.lock = none then some (s.start b write) else none
    | _ => none
  | .notify b =>
    match s.phase b with
    | .formatted write idx => some (.ok (s.notify b write idx))
    | _ => none
  | .finish b =>
    match s.phase b with
    -- The test of the loop: `b->disk` is what the interrupt handler clears.
    | .waiting _ idx => if s.lock = none ∧ (s.buf b).disk = false then some (s.finish b idx)
        else none
    | _ => none
  | .intr => if s.lock = none then some (.ok { s with lock := some .intr }) else none
  -- The index is read anew in each round, while the device goes on.
  | .reap => if s.lock = some .intr ∧ s.disk.usedIdx ≠ s.disk.used.idx then some s.reap else none
  | .intrEnd =>
    if s.lock = some .intr ∧ s.disk.usedIdx = s.disk.used.idx then
      some (.ok { s with lock := none }) else none
  | .fetch => if s.seen ≠ s.disk.avail.idx then some (.ok s.fetch) else none
  | .transfer h b ok =>
    if h ∈ s.taken then
      (readChain s.disk h).bind fun chain => if chain.b = b then some (.ok (s.transfer h chain ok))
        else none
    else none
  | .post h => if h ∈ s.served then some (.ok (s.post h)) else none
  -- Only while no call uses the buffer: the caller has its sleeplock.
  | .edit b blockno data =>
    if s.phase b = .idle then
      some (.ok (s.setBuf b { s.buf b with blockno := blockno, data := data })) else none

/-- The steps. -/
def Step (s : State B S) (e : Event B S) (s' : State B S) : Prop := exec s e = some (.ok s')

/-- The state after `virtio_disk_init`. -/
structure Boot (s : State B S) : Prop where
  free : ∀ i < num, s.disk.free i = true
  avail : s.disk.avail.idx = 0
  used : s.disk.used.idx = 0
  usedIdx : s.disk.usedIdx = 0
  disk : ∀ b, (s.buf b).disk = false
  phase : ∀ b, s.phase b = .idle
  lock : s.lock = none
  seen : s.seen = 0
  taken : s.taken = []
  served : s.served = []

end

/-! ## A disk that serves each request in one step -/

namespace Atomic

/-- A request for a buffer. -/
inductive Phase
  | idle
  | asked (write : Bool)
  | done
  | failed
deriving DecidableEq

/-- The sectors, and the block, the data and the request of each buffer. -/
structure State (B S : Type) where
  sectors : Nat → S
  blockno : B → Nat
  data : B → S × S
  phase : B → Phase

inductive Event (B S : Type)
  | ask (b : B) (write : Bool)
  | perform (b : B)
  | fail (b : B)
  | answer (b : B)
  | edit (b : B) (blockno : Nat) (data : S × S)

variable {B S : Type} [DecidableEq B]

/-- Copy the block of the buffer to the disk. -/
def State.writeBlock (s : State B S) (b : B) : State B S :=
  { s with sectors := putBlock s.sectors (sectorOf (s.blockno b)) (s.data b) }

/-- Copy the block of the buffer from the disk. -/
def State.readBlock (s : State B S) (b : B) : State B S :=
  { s with data := Function.update s.data b (getBlock s.sectors (sectorOf (s.blockno b))) }

def State.setPhase (s : State B S) (b : B) (phase : Phase) : State B S :=
  { s with phase := Function.update s.phase b phase }

/-- The steps: a request is asked for, performed or failed, and answered. -/
inductive Step : State B S → Event B S → State B S → Prop
  | ask {s : State B S} {b : B} {write : Bool} (idle : s.phase b = .idle) :
      Step s (.ask b write) (s.setPhase b (.asked write))
  | perform {s : State B S} {b : B} {write : Bool} (asked : s.phase b = .asked write) :
      Step s (.perform b) ((if write then s.writeBlock b else s.readBlock b).setPhase b .done)
  | fail {s : State B S} {b : B} {write : Bool} (asked : s.phase b = .asked write) :
      Step s (.fail b) (s.setPhase b .failed)
  | answer {s : State B S} {b : B} (done : s.phase b = .done) :
      Step s (.answer b) (s.setPhase b .idle)
  | edit {s : State B S} {b : B} {blockno : Nat} {data : S × S} (idle : s.phase b = .idle) :
      Step s (.edit b blockno data) { s with
        blockno := Function.update s.blockno b blockno
        data := Function.update s.data b data }

end Atomic

section

variable {B S : Type} [DecidableEq B]

/-- The request of a call, which is as its status byte says. -/
def State.request (s : State B S) (b : B) : Atomic.Phase :=
  match s.phase b with
  | .idle => .idle
  | .asked write => .asked write
  | .formatted write idx | .waiting write idx =>
    -- The status that `format` wrote: the device has not served the request.
    if (s.disk.info idx.head).status = 0xff then .asked write
    else if (s.disk.info idx.head).status = 0 then .done
    else .failed

/-- What the driver and the device are together. -/
def State.atomic (s : State B S) : Atomic.State B S where
  sectors := s.sectors
  blockno b := (s.buf b).blockno
  data b := (s.buf b).data
  phase := s.request

/-- The events that are seen from outside. -/
def Event.atomic : Event B S → Option (Atomic.Event B S)
  | .call b write => some (.ask b write)
  | .transfer _ b ok => some (if ok then .perform b else .fail b)
  | .finish b => some (.answer b)
  | .edit b blockno data => some (.edit b blockno data)
  | _ => none

end

end Xv6.Virtio
