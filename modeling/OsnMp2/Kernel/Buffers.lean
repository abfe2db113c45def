import Mathlib.Data.Fintype.Basic
import OsnMp2.Lib.Ring
import OsnMp2.Lib.Runs
import OsnMp2.Lib.Tally

/-!
# The buffer cache

The functions of `bio.c`: buffers in a doubly linked ring, most recently used first, each with its
block, its references and its sleep-lock. `bget` looks for the block from the front, and recycles
the first unused buffer from the back; what is done under `bcache.lock` is one step, and so is each
use of the sleep-lock and of the disk. Between the steps of one reader those of the others are made,
and the log may pin buffers.

A reader is a call of `bread` with what follows, up to the end of `brelse`; a process that has
several buffers is several readers. What happens to the contents of the blocks is recorded along the
run, from the events and from the buffers that they are about: which contents are left in the buffer
of a block, which ones `bwrite` is given, and which block loses its buffer. The buffers start with
the block 0 of the device 0 and no contents, so that several of them may carry this block; the first
one that carries a block is the only one in use.

## Main definitions

* `State`, `next`: the cache with its readers, and the steps
* `happened`: what a step does to the contents of blocks
* `lastLeft`, `lastWritten`: what was last left in the buffer of a block, and last written to the
  disk
* `Inv`: the invariant
* `OneCopy`: one copy of each block, which `bread` returns

## Main results

* `Inv.step`: every step keeps the invariant
* `one_copy`: there is one copy of each block along every run
-/

namespace Xv6.Bio

/-! ## The code -/

/-- `NBUF`. -/
abbrev nbuf : Nat := 30

abbrev Ix := Fin nbuf

/-- `struct buf *`: a buffer, or `none` for `&bcache.head`. -/
abbrev Node := Option Ix

/-- `uint`. -/
abbrev Uint := BitVec 32

/-- A block, by its device and its number. -/
structure Block where
  dev : Uint
  blockno : Uint
deriving DecidableEq

/-- Where the disk has a block: `virtio_disk_rw` computes this with 32 bits, and there is one
disk. -/
def Block.sector (k : Block) : Uint := k.blockno * 2

/-- `struct buf`, for readers `ι` and contents `V`. -/
structure Buf (ι V : Type) where
  valid : Bool := false
  block : Block := ⟨0, 0⟩
  refcnt : Nat := 0
  lock : Option ι := none
  data : V

/-- Where a reader is. -/
inductive Pc
  /-- outside of `bread` and `brelse`, without a buffer -/
  | idle
  /-- in `bget`, before `acquiresleep` -/
  | waiting (b : Ix) (k : Block)
  /-- in `bread`, before the test of `valid` -/
  | locked (b : Ix) (k : Block)
  /-- `bread` has returned -/
  | holding (b : Ix) (k : Block)
  /-- in `brelse`, after `releasesleep` -/
  | releasing (b : Ix)
deriving DecidableEq

/-- `bcache`, with the disk, the readers and the pins of the log. -/
structure State (ι V : Type) where
  buf : Ix → Buf ι V
  links : Links Node
  disk : Uint → V
  reader : ι → Pc
  pins : Ix → Nat := fun _ => 0

variable {ι V : Type}

namespace State

/-- Change the buffer `b`. -/
def onBuf (s : State ι V) (b : Ix) (f : Buf ι V → Buf ι V) : State ι V :=
  { s with buf := Function.update s.buf b (f (s.buf b)) }

/-- The reader `h` goes on to `pc`. -/
def setReader [DecidableEq ι] (s : State ι V) (h : ι) (pc : Pc) : State ι V :=
  { s with reader := Function.update s.reader h pc }

/-- `b->dev == dev && b->blockno == blockno`. -/
def carries (s : State ι V) (k : Block) : Node → Bool
  | some b => (s.buf b).block = k
  | none => false

/-- `b->refcnt == 0`. -/
def unused (s : State ι V) : Node → Bool
  | some b => (s.buf b).refcnt = 0
  | none => false

end State

/-- The ring with nothing in it but the head, and then each buffer behind the head: `binit`. -/
def binit (r : Links Node) : Links Node :=
  (List.finRange nbuf).foldl (fun r b => r.insertAfter none (some b)) (r.close none)

/-- `bget`, up to the release of `bcache.lock`; none when it panics. -/
def bget (s : State ι V) (k : Block) : Option (Ix × State ι V) :=
  -- From the most recently used end on.
  match s.links.findNext none (s.carries k) (nbuf + 1) (s.links.next none) with
  | some (some b) => some (b, s.onBuf b fun x => { x with refcnt := x.refcnt + 1 })
  | _ =>
    -- From the other end: the least recently used buffer without references.
    match s.links.flip.findNext none s.unused (nbuf + 1) (s.links.prev none) with
    | some (some b) =>
      some (b, s.onBuf b fun x => { x with block := k, valid := false, refcnt := 1 })
    | _ => none

/-- `bread`, from the test of `valid` on. -/
def fill (s : State ι V) (b : Ix) : State ι V :=
  -- A buffer that another reader has filled in the meantime is not read again.
  s.onBuf b fun x => if x.valid then x else { x with data := s.disk x.block.sector, valid := true }

/-- `bwrite`. -/
def bwrite (s : State ι V) (b : Ix) : State ι V :=
  -- `valid` is not touched: the buffer was read before.
  { s with disk := Function.update s.disk (s.buf b).block.sector (s.buf b).data }

/-- The last part of `brelse`, under `bcache.lock`. -/
def brelse (s : State ι V) (b : Ix) : State ι V :=
  let s := s.onBuf b fun x => { x with refcnt := x.refcnt - 1 }
  -- The last reference: the buffer moves to the front of the ring.
  if (s.buf b).refcnt = 0 then
    { s with links := (s.links.unlink (some b)).insertAfter none (some b) } else s

/-- The steps. -/
inductive Event (ι V : Type)
  | bget (h : ι) (k : Block)
  | acquire (h : ι)
  | fill (h : ι)
  | store (h : ι) (v : V)
  | bwrite (h : ι)
  | unlock (h : ι)
  | brelse (h : ι)
  | bpin (b : Ix)
  | bunpin (b : Ix)

/-- **A step**: a reader goes on, or the log pins or unpins a buffer. -/
def next [DecidableEq ι] (s : State ι V) : Event ι V → Option (State ι V)
  | .bget h k =>
    match s.reader h with
    | .idle => (bget s k).map fun r => r.2.setReader h (.waiting r.1 k)
    | _ => none
  | .acquire h =>
    match s.reader h with
    | .waiting b k =>
      -- `acquiresleep` returns once the lock is free.
      if (s.buf b).lock = none then
        some ((s.onBuf b fun x => { x with lock := some h }).setReader h (.locked b k))
      else none
    | _ => none
  | .fill h =>
    match s.reader h with
    | .locked b k => some ((fill s b).setReader h (.holding b k))
    | _ => none
  | .store h v =>
    match s.reader h with
    | .holding b _ => some (s.onBuf b fun x => { x with data := v })
    | _ => none
  | .bwrite h =>
    match s.reader h with
    -- `holdingsleep`: without the lock `bwrite` panics.
    | .holding b _ => if (s.buf b).lock = some h then some (bwrite s b) else none
    | _ => none
  | .unlock h =>
    match s.reader h with
    | .holding b _ =>
      if (s.buf b).lock = some h then
        some ((s.onBuf b fun x => { x with lock := none }).setReader h (.releasing b))
      else none
    | _ => none
  | .brelse h =>
    match s.reader h with
    | .releasing b => some ((brelse s b).setReader h .idle)
    | _ => none
  | .bpin b => some { s.onBuf b fun x => { x with refcnt := x.refcnt + 1 } with
      pins := Function.update s.pins b (s.pins b + 1) }
  | .bunpin b =>
    if 0 < s.pins b then
      some { s.onBuf b fun x => { x with refcnt := x.refcnt - 1 } with
        pins := Function.update s.pins b (s.pins b - 1) }
    else none

def Step [DecidableEq ι] (s : State ι V) (e : Event ι V) (s' : State ι V) :
    Prop := next s e = some s'

/-- The cache after `binit`, with the contents `d` of the disk; the data of the buffers and the
pointers are anything before it. -/
def init (d : Uint → V) (junk : Ix → V) (r : Links Node) : State ι V where
  buf b := { data := junk b }
  -- All buffers carry block 0 of device 0, and none of them is valid.
  links := binit r
  disk := d
  reader _ := .idle

/-! ## What has happened -/

/-- What happens to the contents of blocks. -/
inductive Mark (V : Type)
  /-- contents are left in the buffer of the block, by a reader or by `bread` that returns them -/
  | left (k : Block) (v : V)
  /-- `bwrite` is called for the place, with contents in its buffer -/
  | written (x : Uint) (v : V)
  /-- the buffer of the block is taken, with its contents -/
  | recycled (k : Block)

/-- **What a step from `s` to `s'` does to the contents of blocks**, by its event and by the
buffer of the reader. -/
def happened (s : State ι V) (e : Event ι V) (s' : State ι V) : List (Mark V) :=
  match e with
  | .bget h _ =>
    match s'.reader h with
    -- `valid` has been cleared, so the buffer was taken over.
    | .waiting b _ => if (s.buf b).valid && !(s'.buf b).valid then [.recycled (s.buf b).block]
        else []
    | _ => []
  | .fill h =>
    match s.reader h with
    | .locked b k => [.left k (s'.buf b).data]
    | _ => []
  | .store h v =>
    match s.reader h with
    | .holding _ k => [.left k v]
    | _ => []
  | .bwrite h =>
    match s.reader h with
    | .holding b k => [.written k.sector (s.buf b).data]
    | _ => []
  | _ => []

/-- One more event, for the contents in the buffer of the block `k`. -/
def leave (k : Block) (acc : Option V) : Mark V → Option V
  | .left k' v => if k' = k then some v else acc
  | .recycled k' => if k' = k then none else acc
  | .written _ _ => acc

/-- **What was last left in the buffer of the block**, none when it was recycled since. -/
def lastLeft (log : List (Mark V)) (k : Block) : Option V := log.foldl (leave k) none

/-- One more event, for the contents on the disk at `x`. -/
def write (x : Uint) (acc : V) : Mark V → V
  | .written x' v => if x' = x then v else acc
  | _ => acc

/-- **What was last written to the disk** at `x`, which has `d` at first. -/
def lastWritten (d : Uint → V) (log : List (Mark V)) (x : Uint) : V := log.foldl (write x) (d x)

theorem lastLeft_append (log : List (Mark V)) (m : Mark V) (k : Block) :
    lastLeft (log ++ [m]) k = leave k (lastLeft log k) m := by
  rw [lastLeft, List.foldl_append]
  rfl

theorem lastWritten_append (d : Uint → V) (log : List (Mark V)) (m : Mark V) (x : Uint) :
    lastWritten d (log ++ [m]) x = write x (lastWritten d log x) m := by
  rw [lastWritten, List.foldl_append]
  rfl

/-! ## The invariant -/

/-- The buffer of a reader. -/
def Pc.buf : Pc → Option Ix
  | .idle => none
  | .waiting b _ | .locked b _ | .holding b _ | .releasing b => some b

/-- The buffer whose sleep-lock a reader has. -/
def Pc.locks : Pc → Option Ix
  | .locked b _ | .holding b _ => some b
  | _ => none

/-- The buffer and the block of a reader that has not released it. -/
def Pc.at : Pc → Option (Ix × Block)
  | .waiting b k | .locked b k | .holding b k => some (b, k)
  | _ => none

theorem Pc.buf_of_at {pc : Pc} {b : Ix} {k : Block} (h : pc.at = some (b, k)) :
    pc.buf = some b := by
  cases pc <;> cases h <;> rfl

theorem Pc.buf_of_locks {pc : Pc} {b : Ix} (h : pc.locks = some b) : pc.buf = some b := by
  cases pc <;> cases h <;> rfl

/-- The reader has a reference to the buffer. -/
def State.uses (s : State ι V) (b : Ix) (h : ι) : Bool := (s.reader h).buf = some b

/-- The buffer has not been used since `binit`. -/
structure State.Fresh (s : State ι V) (b : Ix) : Prop where
  block : (s.buf b).block = ⟨0, 0⟩
  invalid : (s.buf b).valid = false
  unused : ∀ h, s.uses b h = false

/-- The first buffer of the list that carries the block. -/
def State.find (s : State ι V) (l : List Ix) (k : Block) : Option Ix := l.find? fun b =>
    (s.buf b).block = k

/-- **The invariant of the cache**, whose ring goes through the buffers `l`, after what the log
says. -/
structure Inv [Fintype ι] (d : Uint → V) (l : List Ix) (log : List (Mark V)) (s : State ι V) :
    Prop where
  ring : s.links.Ring none (l.map some)
  all : l.Perm (List.finRange nbuf)
  first : ∀ b, s.Fresh b ∨ s.find l (s.buf b).block = some b
  refs : ∀ b, ((s.buf b).refcnt : Int) = tally Finset.univ (s.uses b) + s.pins b
  lock : ∀ h b, (s.buf b).lock = some h ↔ (s.reader h).locks = some b
  block : ∀ h b k, (s.reader h).at = some (b, k) → (s.buf b).block = k
  holding : ∀ h b k, s.reader h = .holding b k → (s.buf b).valid = true
  contents : ∀ b, (s.buf b).valid = true → lastLeft log (s.buf b).block = some (s.buf b).data
  empty : ∀ k, (∀ b, (s.buf b).block = k → (s.buf b).valid = false) → lastLeft log k = none
  disk : ∀ x, s.disk x = lastWritten d log x

variable {d : Uint → V} {l : List Ix} {log : List (Mark V)} {s s' : State ι V} {b c : Ix}
    {k : Block} {h : ι}

theorem not_fresh_of_valid (hv : (s.buf b).valid = true) : ¬ s.Fresh b := by
  intro hf
  rw [hf.invalid] at hv
  cases hv

theorem not_fresh_of_uses (hu : s.uses b h = true) : ¬ s.Fresh b := by
  intro hf
  rw [hf.unused h] at hu
  cases hu

theorem State.find_eq_some (hf : s.find l k = some b) : (s.buf b).block = k := by
  have hp := List.find?_some hf
  exact of_decide_eq_true hp

/-- A buffer that keeps its block and is used by no more readers stays fresh, or the first. -/
theorem State.Fresh.of_same (hf : s.Fresh b) (hblock : (s'.buf b).block = (s.buf b).block)
    (hvalid : (s'.buf b).valid = (s.buf b).valid)
    (huses : ∀ h, s'.uses b h = true → s.uses b h = true) : s'.Fresh b where
  block := hblock.trans hf.block
  invalid := hvalid.trans hf.invalid
  unused h := by
    by_contra hu
    have hold := huses h (Bool.eq_true_of_not_eq_false hu)
    rw [hf.unused h] at hold
    cases hold

theorem find_same (hblock : ∀ b, (s'.buf b).block = (s.buf b).block) (l : List Ix) (k : Block) :
    s'.find l k = s.find l k := by
  unfold State.find
  congr 1
  funext b
  rw [hblock]

/-- A buffer is moved to the front, where it is the first with its block. -/
theorem find_front {l₁ l₂ : List Ix} (hb : s.find (l₁ ++ b :: l₂) (s.buf b).block = some b)
    (hc : s.find (l₁ ++ b :: l₂) (s.buf c).block = some c) :
    s.find (b :: (l₁ ++ l₂)) (s.buf c).block = some c := by
  by_cases heq : (s.buf b).block = (s.buf c).block
  · rw [heq, hc] at hb
    obtain rfl := Option.some.inj hb
    exact List.find?_cons_of_pos (decide_eq_true rfl)
  · rw [← hc]
    unfold State.find
    rw [List.find?_cons_of_neg (by simpa using heq), List.find?_append, List.find?_append,
      List.find?_cons_of_neg (by simpa using heq)]

section Readers

variable [DecidableEq ι] [Fintype ι]

/-- The references of the readers, when one of them goes on. -/
theorem tally_uses (pc : Pc) (hreader : s'.reader = Function.update s.reader h pc) (b : Ix) :
    tally Finset.univ (s'.uses b) = tally Finset.univ (s.uses b) - (if (s.reader h).buf =
      some b then 1 else 0) +
      if pc.buf = some b then 1 else 0 := by
  rw [tally_move (p := s.uses b) (Finset.mem_univ h)]
  · unfold State.uses
    rw [hreader, Function.update_self]
    simp only [decide_eq_true_eq]
  · intro h' _ hne
    unfold State.uses
    rw [hreader, Function.update_of_ne hne]

end Readers

variable [Fintype ι]

/-- Two used buffers with one block are one. -/
theorem Inv.unique (hi : Inv d l log s) (hb : ¬ s.Fresh b) (hc : ¬ s.Fresh c)
    (heq : (s.buf b).block = (s.buf c).block) : b = c := by
  have hfb := (hi.first b).resolve_left hb
  have hfc := (hi.first c).resolve_left hc
  rw [heq, hfc] at hfb
  exact (Option.some.inj hfb).symm

/-- A buffer that a reader uses has a reference. -/
theorem Inv.referenced (hi : Inv d l log s) (hu : s.uses b h = true) : 0 < (s.buf b).refcnt := by
  have hrefs := hi.refs b
  have hpos := tally_pos (Finset.mem_univ h) hu
  omega

/-- A buffer without references is used by nobody. -/
theorem Inv.nobody (hi : Inv d l log s) (hr : (s.buf b).refcnt = 0) (h : ι) :
    s.uses b h = false := by
  by_contra hu
  have hpos := hi.referenced (Bool.eq_true_of_not_eq_false hu)
  omega

theorem Inv.mem (hi : Inv d l log s) (b : Ix) : b ∈ l := hi.all.mem_iff.mpr (List.mem_finRange b)

theorem Inv.length (hi : Inv d l log s) : l.length = nbuf := by
  rw [hi.all.length_eq, List.length_finRange]

/-- The search of `bget` from the front. -/
theorem Inv.findNext (hi : Inv d l log s) (k : Block) :
    s.links.findNext none (s.carries k) (nbuf + 1) (s.links.next none) = (s.find l k).map some := by
  rw [hi.ring.findNext (by rw [List.length_map, hi.length]; exact Nat.lt_succ_self _),
    List.find?_map]
  rfl

/-- The search of `bget` from the back. -/
theorem Inv.findPrev (hi : Inv d l log s) :
    s.links.flip.findNext none s.unused (nbuf + 1) (s.links.prev none) =
      (l.reverse.find? fun b => (s.buf b).refcnt = 0).map some := by
  have hring := hi.ring.flip
  rw [← List.map_reverse] at hring
  have hfind := hring.findNext (p := s.unused) (n := nbuf + 1)
    (by rw [List.length_map, List.length_reverse, hi.length]; exact Nat.lt_succ_self _)
  rw [List.find?_map] at hfind
  exact hfind

/-! ## What `bget` does -/

/-- **The ways in which a buffer is got**: the first one that carries the block, or else an unused
one. -/
inductive Got (l : List Ix) (s : State ι V) (k : Block) : Ix → State ι V → Prop
  | hit {b : Ix} (found : s.find l k = some b) :
      Got l s k b (s.onBuf b fun x => { x with refcnt := x.refcnt + 1 })
  | recycle {b : Ix} (missing : s.find l k = none) (unused : (s.buf b).refcnt = 0) :
      Got l s k b (s.onBuf b fun x => { x with block := k, valid := false, refcnt := 1 })

theorem Inv.got (hi : Inv d l log s) (hget : bget s k = some (b, s')) : Got l s k b s' := by
  unfold bget at hget
  rw [hi.findNext, hi.findPrev] at hget
  cases hfind : s.find l k with
  | some c =>
    rw [hfind] at hget
    cases hget
    exact .hit hfind
  | none =>
    rw [hfind] at hget
    cases hprev : l.reverse.find? fun b => (s.buf b).refcnt = 0 with
    | none =>
      rw [hprev] at hget
      cases hget
    | some c =>
      rw [hprev] at hget
      cases hget
      have hp := List.find?_some hprev
      exact .recycle hfind (of_decide_eq_true hp)

/-! ## The steps keep the invariant -/

/-- A step that leaves the contents as they are. -/
theorem Inv.of_contents (hi : Inv d l log s) (l' : List Ix)
    (hbuf : ∀ b, (s'.buf b).block = (s.buf b).block ∧ (s'.buf b).valid = (s.buf b).valid ∧
      (s'.buf b).data = (s.buf b).data)
    (hdisk : s'.disk = s.disk) (hring : s'.links.Ring none (l'.map some))
    (hall : l'.Perm (List.finRange nbuf))
    (hfirst : ∀ b, s'.Fresh b ∨ s'.find l' (s'.buf b).block = some b)
    (hrefs : ∀ b, ((s'.buf b).refcnt : Int) = tally Finset.univ (s'.uses b) + s'.pins b)
    (hreader : ∀ h, (∀ b, (s'.buf b).lock = some h ↔ (s'.reader h).locks = some b) ∧
      (∀ b k, (s'.reader h).at = some (b, k) → (s.buf b).block = k) ∧
      ∀ b k, s'.reader h = .holding b k → (s.buf b).valid = true) : Inv d l' log s' where
  ring := hring
  all := hall
  first := hfirst
  refs := hrefs
  lock h b := (hreader h).1 b
  block h b k hat := (hbuf b).1.trans ((hreader h).2.1 b k hat)
  holding h b k hpc := (hbuf b).2.1.trans ((hreader h).2.2 b k hpc)
  contents b hv := by
    rw [(hbuf b).2.1] at hv
    rw [(hbuf b).1, (hbuf b).2.2]
    exact hi.contents b hv
  empty k hk := by
    apply hi.empty
    intro b hb
    rw [← (hbuf b).2.1]
    exact hk b ((hbuf b).1.trans hb)
  disk x := by
    rw [hdisk]
    exact hi.disk x

/-- What the invariant says about the readers. -/
theorem Inv.reader (hi : Inv d l log s) (h : ι) :
    (∀ b, (s.buf b).lock = some h ↔ (s.reader h).locks = some b) ∧
    (∀ b k, (s.reader h).at = some (b, k) → (s.buf b).block = k) ∧
      ∀ b k, s.reader h = .holding b k → (s.buf b).valid = true :=
  ⟨hi.lock h, hi.block h, hi.holding h⟩

omit [Fintype ι] in
/-- What an operation on one buffer leaves as it is. -/
theorem onBuf_keeps {α : Type} {f : Buf ι V → Buf ι V} (g : Buf ι V → α)
    (hf : g (f (s.buf b)) = g (s.buf b)) (c : Ix) : g ((s.onBuf b f).buf c) = g (s.buf c) := by
  show g (Function.update s.buf b (f (s.buf b)) c) = _
  by_cases hc : c = b
  · rw [hc, Function.update_self, hf]
  · rw [Function.update_of_ne hc]

omit [Fintype ι] in
theorem onBuf_self (s : State ι V) (b : Ix) (f : Buf ι V → Buf ι V) :
    (s.onBuf b f).buf b = f (s.buf b) :=
  Function.update_self ..

omit [Fintype ι] in
theorem onBuf_of_ne (hc : c ≠ b) (f : Buf ι V → Buf ι V) : (s.onBuf b f).buf c = s.buf c :=
  Function.update_of_ne hc ..

/-- The buffer of a reader is the first one with its block. -/
theorem Inv.first_of_reader (hi : Inv d l log s) (hu : (s.reader h).buf = some b) :
    s.find l (s.buf b).block = some b :=
  (hi.first b).resolve_left (not_fresh_of_uses (h := h) (decide_eq_true hu))

/-- The lock of the buffer of a reader that does not have the lock is not its own. -/
theorem Inv.lock_ne (hi : Inv d l log s) (hl : (s.reader h).locks = none) (b : Ix) :
    (s.buf b).lock ≠ some h := by
  intro heq
  rw [hi.lock, hl] at heq
  cases heq

/-- **The log pins or unpins** a buffer. -/
theorem Inv.pin {n p : Nat} (hi : Inv d l log s)
    (hn : (n : Int) - (s.buf b).refcnt = p - s.pins b) :
    Inv d l log { s.onBuf b fun x => { x with refcnt := n } with pins := Function.update s.pins b p } := by
  have hsame : ∀ c, ((s.onBuf b fun x => { x with refcnt := n }).buf c).block = (s.buf c).block ∧
      ((s.onBuf b fun x => { x with refcnt := n }).buf c).valid = (s.buf c).valid ∧
      ((s.onBuf b fun x => { x with refcnt := n }).buf c).data = (s.buf c).data := fun c =>
    ⟨onBuf_keeps (·.block) rfl c, onBuf_keeps (·.valid) rfl c, onBuf_keeps (·.data) rfl c⟩
  refine hi.of_contents l (fun c => hsame c) rfl hi.ring hi.all (fun c => ?_) (fun c => ?_)
    fun h' => ?_
  · refine (hi.first c).imp (fun hfresh => hfresh.of_same (hsame c).1 (hsame c).2.1 fun h' hu => hu)
      fun hc => ?_
    show State.find _ l ((s.onBuf b fun x => { x with refcnt := n }).buf c).block = some c
    rw [(hsame c).1]
    exact (find_same (fun c => (hsame c).1) l _).trans hc
  · have hold := hi.refs c
    show ((((s.onBuf b fun x => { x with refcnt := n }).buf c).refcnt : Nat) : Int) =
      tally Finset.univ (s.uses c) + (Function.update s.pins b p c : Nat)
    by_cases hc : c = b
    · subst hc
      rw [onBuf_self, Function.update_self]
      show (n : Int) = _
      omega
    · rw [onBuf_of_ne hc, Function.update_of_ne hc, hold]
  · obtain ⟨holdlock, holdblock, holdholding⟩ := hi.reader h'
    refine ⟨fun c => ?_, holdblock, holdholding⟩
    have hlock : ((s.onBuf b fun x => { x with refcnt := n }).buf c).lock = (s.buf c).lock :=
      onBuf_keeps (·.lock) rfl c
    exact (Eq.congr_left hlock).trans (holdlock c)

/-- A buffer is written to the disk. -/
theorem Inv.bwrite (hi : Inv d l log s) (b : Ix) :
    Inv d l (log ++ [.written (s.buf b).block.sector (s.buf b).data]) (Bio.bwrite s b) where
  ring := hi.ring
  all := hi.all
  first c := (hi.first c).imp (fun hfresh => ⟨hfresh.block, hfresh.invalid, hfresh.unused⟩) id
  refs := hi.refs
  lock := hi.lock
  block := hi.block
  holding := hi.holding
  contents c hv := by
    rw [lastLeft_append]
    exact hi.contents c hv
  empty k hk := by
    rw [lastLeft_append]
    exact hi.empty k hk
  disk x := by
    rw [lastWritten_append]
    show Function.update s.disk (s.buf b).block.sector (s.buf b).data x =
      if (s.buf b).block.sector = x then (s.buf b).data else lastWritten d log x
    rw [Function.update_apply]
    by_cases hx : x = (s.buf b).block.sector
    · rw [if_pos hx, if_pos hx.symm]
    · rw [if_neg hx, if_neg fun heq => hx heq.symm, hi.disk]

variable [DecidableEq ι]

omit [Fintype ι] in
theorem setReader_self (s : State ι V) (h : ι) (pc : Pc) : (s.setReader h pc).reader h = pc :=
  Function.update_self ..

omit [Fintype ι] in
theorem setReader_of_ne {h' : ι} (hh : h' ≠ h) (pc : Pc) :
    (s.setReader h pc).reader h' = s.reader h' :=
  Function.update_of_ne hh ..

/-- **A reader goes on** without new contents: it may change the references and the lock of one
buffer. -/
theorem Inv.goOn {f : Buf ι V → Buf ι V} {pc : Pc} (hi : Inv d l log s)
    (hf : (f (s.buf b)).block = (s.buf b).block ∧ (f (s.buf b)).valid = (s.buf b).valid ∧
      (f (s.buf b)).data = (s.buf b).data)
    (hfirst : ∀ c, pc.buf = some c → s.find l (s.buf c).block = some c)
    (hrefs : ((f (s.buf b)).refcnt : Int) =
      (s.buf b).refcnt - (if (s.reader h).buf = some b then 1 else 0) +
      if pc.buf = some b then 1 else 0)
    (hother : ∀ c, c ≠ b → (s.reader h).buf ≠ some c ∧ pc.buf ≠ some c)
    (hlock : ∀ h', (f (s.buf b)).lock = some h' ↔ if h' = h then pc.locks = some b
      else (s.buf b).lock = some h')
    (hblock : ∀ c k, pc.at = some (c, k) → (s.buf c).block = k)
    (hholding : ∀ c k, pc = .holding c k → (s.buf c).valid = true) :
    Inv d l log ((s.onBuf b f).setReader h pc) := by
  -- Contents, block and validity stay, so this is about references and locks.
  have hsame : ∀ c, ((s.onBuf b f).buf c).block = (s.buf c).block ∧
      ((s.onBuf b f).buf c).valid = (s.buf c).valid ∧ ((s.onBuf b f).buf c).data = (s.buf c).data :=
      fun c =>
    ⟨onBuf_keeps (·.block) hf.1 c, onBuf_keeps (·.valid) hf.2.1 c, onBuf_keeps (·.data) hf.2.2 c⟩
  refine hi.of_contents l (fun c => hsame c) rfl hi.ring hi.all (fun c => ?_) (fun c => ?_)
    fun h' => ?_
  · have hfind : ((s.onBuf b f).setReader h pc).find l ((s.onBuf b f).buf c).block =
      s.find l (s.buf c).block := by
      rw [(hsame c).1]
      exact find_same (fun c => (hsame c).1) l _
    by_cases huse : pc.buf = some c
    · exact Or.inr (hfind.trans (hfirst c huse))
    · refine (hi.first c).imp (fun hfresh => hfresh.of_same (hsame c).1 (hsame c).2.1
        fun h' hu => ?_) fun hc => hfind.trans hc
      unfold State.uses at hu ⊢
      by_cases hh : h' = h
      · subst hh
        rw [decide_eq_true_eq, setReader_self] at hu
        exact absurd hu huse
      · rwa [setReader_of_ne hh] at hu
  -- the one reader that moves gives up one use of the buffer and takes one
  · rw [tally_uses (s := s) (h := h) pc rfl]
    have hold := hi.refs c
    by_cases hc : c = b
    · subst hc
      show ((((s.onBuf c f).buf c).refcnt : Nat) : Int) = _ + (s.pins c : Int)
      rw [onBuf_self, hrefs, hold]
      omega
    · obtain ⟨hbefore, hafter⟩ := hother c hc
      show ((((s.onBuf b f).buf c).refcnt : Nat) : Int) = _ + (s.pins c : Int)
      rw [onBuf_of_ne hc, if_neg hbefore, if_neg hafter, hold]
      omega
  · obtain ⟨holdlock, holdblock, holdholding⟩ := hi.reader h'
    by_cases hh : h' = h
    · subst hh
      rw [setReader_self]
      refine ⟨fun c => ?_, hblock, hholding⟩
      by_cases hc : c = b
      · subst hc
        show ((s.onBuf c f).buf c).lock = some h' ↔ _
        rw [onBuf_self, hlock, if_pos rfl]
      · show ((s.onBuf b f).buf c).lock = some h' ↔ _
        rw [onBuf_of_ne hc, holdlock]
        constructor
        · exact fun hl => absurd (Pc.buf_of_locks hl) (hother c hc).1
        · exact fun hl => absurd (Pc.buf_of_locks hl) (hother c hc).2
    · rw [setReader_of_ne hh]
      refine ⟨fun c => ?_, holdblock, holdholding⟩
      by_cases hc : c = b
      · subst hc
        show ((s.onBuf c f).buf c).lock = some h' ↔ _
        rw [onBuf_self, hlock, if_neg hh]
        exact holdlock c
      · show ((s.onBuf b f).buf c).lock = some h' ↔ _
        rw [onBuf_of_ne hc]
        exact holdlock c

/-- **A reader gets the buffer** that carries its block. -/
theorem Inv.hit (hi : Inv d l log s) (hidle : s.reader h = .idle) (hfound : s.find l k = some b) :
    Inv d l log ((s.onBuf b fun x => { x with refcnt := x.refcnt + 1 }).setReader h
      (.waiting b k)) := by
  have hkey := State.find_eq_some hfound
  have hnolock := hi.lock_ne (h := h) (by rw [hidle]; rfl) b
  refine hi.goOn ⟨rfl, rfl, rfl⟩ (fun c hc => ?_) ?_ (fun c hc => ?_) (fun h' => ?_)
    (fun c k' hc => ?_) fun c k' hc => ?_
  · cases hc
    rw [hkey]
    exact hfound
  · rw [hidle]
    simp [Pc.buf]
  · rw [hidle]
    exact ⟨fun hb => (nomatch hb), fun hb => hc (Option.some.inj hb).symm⟩
  · by_cases hh : h' = h
    · rw [if_pos hh, hh]
      exact iff_of_false hnolock fun hl => (nomatch hl)
    · rw [if_neg hh]
  · cases hc
    exact hkey
  · cases hc

/-- **A reader gets the lock**. -/
theorem Inv.acquire (hi : Inv d l log s) (hpc : s.reader h = .waiting b k)
    (hfree : (s.buf b).lock = none) :
    Inv d l log ((s.onBuf b fun x => { x with lock := some h }).setReader h (.locked b k)) := by
  have hbuf : (s.reader h).buf = some b := by rw [hpc]; rfl
  refine hi.goOn ⟨rfl, rfl, rfl⟩ (fun c hc => ?_) ?_ (fun c hc => ?_) (fun h' => ?_)
    (fun c k' hc => ?_) fun c k' hc => ?_
  · cases hc
    exact hi.first_of_reader hbuf
  · rw [hpc]
    simp [Pc.buf]
  · rw [hpc]
    exact ⟨fun hb => hc (Option.some.inj hb).symm, fun hb => hc (Option.some.inj hb).symm⟩
  · by_cases hh : h' = h
    · rw [if_pos hh, hh]
      exact iff_of_true rfl rfl
    · rw [if_neg hh, hfree]
      exact iff_of_false (fun heq => hh (Option.some.inj heq).symm) fun heq => (nomatch heq)
  · cases hc
    exact hi.block h _ _ (by rw [hpc]; rfl)
  · cases hc

/-- **A reader gives the lock back**. -/
theorem Inv.unlock (hi : Inv d l log s) (hpc : s.reader h = .holding b k)
    (hlock : (s.buf b).lock = some h) :
    Inv d l log ((s.onBuf b fun x => { x with lock := none }).setReader h (.releasing b)) := by
  have hbuf : (s.reader h).buf = some b := by rw [hpc]; rfl
  refine hi.goOn ⟨rfl, rfl, rfl⟩ (fun c hc => ?_) ?_ (fun c hc => ?_) (fun h' => ?_)
    (fun c k' hc => ?_) fun c k' hc => ?_
  · cases hc
    exact hi.first_of_reader hbuf
  · rw [hpc]
    simp [Pc.buf]
  · rw [hpc]
    exact ⟨fun hb => hc (Option.some.inj hb).symm, fun hb => hc (Option.some.inj hb).symm⟩
  · by_cases hh : h' = h
    · rw [if_pos hh]
      exact iff_of_false (fun heq => (nomatch heq)) fun hl => (nomatch hl)
    · rw [if_neg hh, hlock]
      exact iff_of_false (fun heq => (nomatch heq)) fun heq => hh (Option.some.inj heq).symm
  · cases hc
  · cases hc

/-- **A reader gives its buffer back**, which is the most recently used one when nobody else has
it. -/
theorem Inv.brelse (hi : Inv d l log s) (hpc : s.reader h = .releasing b) :
    ∃ l', Inv d l' log ((brelse s b).setReader h .idle) := by
  have hbuf : (s.reader h).buf = some b := by rw [hpc]; rfl
  have hpos := hi.referenced (h := h) (b := b) (decide_eq_true hbuf)
  have hnolock := hi.lock_ne (h := h) (by rw [hpc]; rfl) b
  have hone : Inv d l log ((s.onBuf b fun x => { x with refcnt := x.refcnt - 1 }).setReader
    h .idle) := by
    refine hi.goOn ⟨rfl, rfl, rfl⟩ (fun c hc => (nomatch hc)) ?_ (fun c hc => ?_) (fun h' => ?_)
      (fun c k' hc => (nomatch hc)) fun c k' hc => (nomatch hc)
    · rw [if_pos hbuf, if_neg (by rintro ⟨⟩)]
      show (((s.buf b).refcnt - 1 : Nat) : Int) = _
      omega
    · rw [hbuf]
      exact ⟨fun hb => hc (Option.some.inj hb).symm, fun hb => (nomatch hb)⟩
    · by_cases hh : h' = h
      · rw [if_pos hh, hh]
        exact iff_of_false hnolock fun hl => (nomatch hl)
      · rw [if_neg hh]
  unfold Bio.brelse
  dsimp only
  split
  · next hlast =>
    obtain ⟨l₁, l₂, rfl⟩ := List.append_of_mem (hi.mem b)
    -- nobody has the buffer any longer, and it is put in front
    have hfirst : s.find (l₁ ++ b :: l₂) (s.buf b).block = some b := hi.first_of_reader hbuf
    have hring := hone.ring
    rw [List.map_append, List.map_cons] at hring
    have hunlinked := hring.unlink
    have hnd := List.nodup_cons.mp hring.nodup
    refine ⟨b :: (l₁ ++ l₂), hone.of_contents _ (fun c => ⟨rfl, rfl, rfl⟩) rfl ?_ ?_ (fun c =>
      ?_) hone.refs hone.reader⟩
    · rw [List.map_cons, List.map_append]
      apply hunlinked.insertAfter
      rw [List.mem_cons, not_or]
      exact ⟨fun heq => (nomatch heq), (List.nodup_cons.mp (List.nodup_middle.mp hnd.2)).1⟩
    · exact List.perm_middle.symm.trans hi.all
    · refine (hone.first c).imp (fun hfresh => ⟨hfresh.block, hfresh.invalid, hfresh.unused⟩)
        fun hc => ?_
      have hblock : ∀ c, ((s.onBuf b fun x => { x with refcnt := x.refcnt - 1 }).buf c).block =
        (s.buf c).block :=
        fun c => onBuf_keeps (·.block) rfl c
      refine find_front (s := (s.onBuf b fun x => { x with refcnt := x.refcnt - 1 }).setReader
        h .idle) ?_ hc
      exact (find_same hblock _ _).trans ((congrArg _ (hblock b)).trans hfirst)
  · exact ⟨l, hone⟩

/-- **Contents are left in the buffer** of a reader that has it locked. -/
theorem Inv.leave {f : Buf ι V → Buf ι V} {v : V} {m : Mark V} {pc : Pc} (hi : Inv d l log s)
    (hf : f (s.buf b) = { s.buf b with data := v, valid := true })
    (hbuf : (s.reader h).buf = some b)
    (hbuf' : pc.buf = some b) (hlocks : pc.locks = (s.reader h).locks)
    (hat : pc.at = (s.reader h).at)
    (hm : ∀ k acc, Bio.leave k acc m = if (s.buf b).block = k then some v else acc)
    (hw : ∀ x acc, write x acc m = acc) : Inv d l (log ++ [m]) ((s.onBuf b f).setReader h pc) := by
  have hblock : ∀ c, ((s.onBuf b f).buf c).block = (s.buf c).block := fun c =>
    onBuf_keeps (·.block) (by rw [hf]) c
  have hused : ¬ s.Fresh b := not_fresh_of_uses (h := h) (decide_eq_true hbuf)
  have huses : ∀ c, ((s.onBuf b f).setReader h pc).uses c = s.uses c := by
    intro c
    funext h'
    unfold State.uses
    by_cases hh : h' = h
    · rw [hh, setReader_self, hbuf', hbuf]
    · rw [setReader_of_ne hh]
      rfl
  -- The reader keeps its place and its lock, and the buffer its block: only the two clauses about
  -- contents see the new data.
  refine ⟨hi.ring, hi.all, fun c => ?_, fun c => ?_, fun h' c => ?_, fun h' c k' hc => ?_,
    fun h' c k' hc => ?_, fun c hv => ?_, fun k' hk' => ?_, fun x => ?_⟩
  · have hfind : ((s.onBuf b f).setReader h pc).find l ((s.onBuf b f).buf c).block =
        s.find l (s.buf c).block := by
      rw [hblock]
      exact find_same hblock l _
    by_cases hc : c = b
    · subst hc
      exact Or.inr (hfind.trans (hi.first_of_reader hbuf))
    · refine (hi.first c).imp (fun hfresh => ⟨(hblock c).trans hfresh.block, ?_, fun h' => ?_⟩)
        fun hcf => hfind.trans hcf
      · show ((s.onBuf b f).buf c).valid = false
        rw [onBuf_of_ne hc]
        exact hfresh.invalid
      · rw [huses]
        exact hfresh.unused h'
  · rw [huses]
    have hcnt : ((s.onBuf b f).buf c).refcnt = (s.buf c).refcnt :=
      onBuf_keeps (·.refcnt) (by rw [hf]) c
    exact (congrArg Nat.cast hcnt).trans (hi.refs c)
  · have hlock : ((s.onBuf b f).buf c).lock = (s.buf c).lock := onBuf_keeps (·.lock) (by rw [hf]) c
    refine (Eq.congr_left hlock).trans ((hi.lock h' c).trans ?_)
    by_cases hh : h' = h
    · rw [hh, setReader_self, hlocks]
    · rw [setReader_of_ne hh]
      exact Iff.rfl
  · refine (hblock c).trans (hi.block h' c k' ?_)
    by_cases hh : h' = h
    · rwa [hh, setReader_self, hat, ← hh] at hc
    · rwa [setReader_of_ne hh] at hc
  · show ((s.onBuf b f).buf c).valid = true
    by_cases hcb : c = b
    · rw [hcb, onBuf_self, hf]
    · rw [onBuf_of_ne hcb]
      by_cases hh : h' = h
      · rw [hh, setReader_self] at hc
        rw [hc] at hbuf'
        exact absurd (Option.some.inj hbuf') hcb
      · rw [setReader_of_ne hh] at hc
        exact hi.holding h' c k' hc
  -- `contents`: two valid buffers never hold one block, so what is left in this one is nothing to
  -- any other.
  · show lastLeft (log ++ [m]) ((s.onBuf b f).buf c).block = some ((s.onBuf b f).buf c).data
    rw [lastLeft_append, hm, hblock]
    by_cases hcb : c = b
    · rw [hcb, if_pos rfl, onBuf_self, hf]
    · have hv' : (s.buf c).valid = true := by
        have hold : ((s.onBuf b f).buf c).valid = true := hv
        rwa [onBuf_of_ne hcb] at hold
      rw [if_neg fun heq => hcb (hi.unique hused (not_fresh_of_valid hv') heq).symm,
        onBuf_of_ne hcb]
      exact hi.contents c hv'
  · have hne : (s.buf b).block ≠ k' := by
      intro heq
      have hv := hk' b ((hblock b).trans heq)
      rw [show (((s.onBuf b f).setReader h pc).buf b) = f (s.buf b) from onBuf_self s b f, hf] at hv
      cases hv
    rw [lastLeft_append, hm, if_neg hne]
    apply hi.empty
    intro c hc
    have hcb : c ≠ b := by
      rintro rfl
      exact hne hc
    have hold := hk' c ((hblock c).trans hc)
    rwa [show (((s.onBuf b f).setReader h pc).buf c) = s.buf c from onBuf_of_ne hcb f] at hold
  · rw [lastWritten_append, hw]
    exact hi.disk x

/-- What `bread` finds in the buffer, or on the disk. -/
def State.found (s : State ι V) (b : Ix) : V :=
  if (s.buf b).valid then (s.buf b).data else s.disk (s.buf b).block.sector

omit [Fintype ι] [DecidableEq ι] in
theorem fill_data (s : State ι V) (b : Ix) : ((fill s b).buf b).data = s.found b := by
  unfold fill State.found
  rw [onBuf_self]
  split <;> rfl

/-- **`bread` returns.** -/
theorem Inv.fill (hi : Inv d l log s) (hpc : s.reader h = .locked b k) :
    Inv d l (log ++ [.left k (s.found b)]) ((Bio.fill s b).setReader h (.holding b k)) := by
  have hkey : (s.buf b).block = k := hi.block h b k (by rw [hpc]; rfl)
  refine hi.leave (v := s.found b) ?_ (by rw [hpc]; rfl) rfl (by rw [hpc]; rfl) (by rw [hpc]; rfl)
    (fun k' acc => ?_) fun x acc => rfl
  · unfold State.found
    cases hv : (s.buf b).valid with
    | true =>
      rw [if_pos rfl, if_pos rfl, ← hv]
    | false =>
      rw [if_neg (by decide), if_neg (by decide)]
  · rw [hkey]
    rfl

/-- A reader changes the contents. -/
theorem Inv.store (hi : Inv d l log s) (hpc : s.reader h = .holding b k) (v : V) :
    Inv d l (log ++ [.left k v]) (s.onBuf b fun x => { x with data := v }) := by
  have hbuf : (s.reader h).buf = some b := by rw [hpc]; rfl
  have hkey : (s.buf b).block = k := hi.block h b k (by rw [hpc]; rfl)
  have hstay : Inv d l (log ++ [.left k v])
      ((s.onBuf b fun x => { x with data := v }).setReader h (s.reader h)) :=
    hi.leave (v := v) (by rw [← hi.holding h b k hpc]) hbuf hbuf rfl rfl
      (fun _ _ => by rw [hkey]; rfl) fun _ _ => rfl
  have hsame : (s.onBuf b fun x => { x with data := v }).setReader h (s.reader h) =
      s.onBuf b fun x => { x with data := v } := by
    unfold State.setReader
    rw [show Function.update (s.onBuf b fun x => { x with data := v }).reader h (s.reader h) =
      s.reader from Function.update_eq_self h s.reader]
    rfl
  rwa [hsame] at hstay

omit [Fintype ι] [DecidableEq ι] in
/-- The first buffer of another block is the first as before. -/
theorem find_of_ne (hsame : ∀ c, c ≠ b → (s'.buf c).block = (s.buf c).block)
    (hb : (s'.buf b).block ≠ k)
    (hcb : c ≠ b) (hf : s.find l k = some c) : s'.find l k = some c := by
  unfold State.find at hf ⊢
  rw [List.find?_eq_some_iff_append] at hf ⊢
  obtain ⟨hc, l₁, l₂, rfl, hbefore⟩ := hf
  refine ⟨by rw [hsame c hcb]; exact hc, l₁, l₂, rfl, fun a ha => ?_⟩
  by_cases hab : a = b
  · rw [hab]
    simpa using hb
  · rw [hsame a hab]
    exact hbefore a ha

omit [Fintype ι] [DecidableEq ι] in
/-- The only buffer of a block is the first. -/
theorem find_only (hb : b ∈ l) (hkey : (s.buf b).block = k)
    (honly : ∀ c, c ≠ b → (s.buf c).block ≠ k) : s.find l k = some b := by
  cases hf : s.find l k with
  | none =>
    have hno := List.find?_eq_none.mp hf b hb
    simp [hkey] at hno
  | some c =>
    by_contra hne
    exact honly c (fun hcb => hne (by rw [hcb])) (State.find_eq_some hf)

/-- **An unused buffer is recycled** for the block that no buffer carries. -/
theorem Inv.recycle (hi : Inv d l log s) (hidle : s.reader h = .idle) (hmissing : s.find l k = none)
    (hunused : (s.buf b).refcnt = 0) :
    Inv d l (log ++ if (s.buf b).valid then [.recycled (s.buf b).block] else [])
      ((s.onBuf b fun x => { x with block := k, valid := false, refcnt := 1 }).setReader h
        (.waiting b k)) := by
  -- The scan found the block in no buffer, so the recycled one is its only holder afterwards.
  have hnone : ∀ c, (s.buf c).block ≠ k := fun c => by
    simpa using List.find?_eq_none.mp hmissing c (hi.mem c)
  have hnobody := hi.nobody hunused
  have hfree : ∀ h', (s.buf b).lock ≠ some h' := by
    intro h' hlock
    have hu : s.uses b h' = true := decide_eq_true (Pc.buf_of_locks ((hi.lock h' b).mp hlock))
    rw [hnobody h'] at hu
    cases hu
  -- From here the new state is known by what it has, not by how it was made.
  generalize hs' :
    (s.onBuf b fun x => { x with block := k, valid := false, refcnt := 1 }).setReader h
      (.waiting b k) = s'
  have hself : s'.buf b = { s.buf b with block := k, valid := false, refcnt := 1 } := by
    rw [← hs']
    exact Function.update_self ..
  have hother : ∀ c, c ≠ b → s'.buf c = s.buf c := fun c hc => by
    rw [← hs']
    exact Function.update_of_ne hc ..
  have hreader : s'.reader = Function.update s.reader h (.waiting b k) := by
    rw [← hs']
    rfl
  have hframe : s'.links = s.links ∧ s'.pins = s.pins ∧ s'.disk = s.disk := by
    rw [← hs']
    exact ⟨rfl, rfl, rfl⟩
  have hkey : (s'.buf b).block = k := by rw [hself]
  have hinvalid : (s'.buf b).valid = false := by rw [hself]
  refine ⟨by rw [hframe.1]; exact hi.ring, hi.all, fun c => ?_, fun c => ?_, fun h' c => ?_,
    fun h' c k' hc => ?_,
    fun h' c k' hc => ?_, fun c hv => ?_, fun k' hk' => ?_, fun x => ?_⟩
  -- `first`: the recycled buffer is the one that a lookup of its new block finds; the others keep
  -- what they had.
  · by_cases hcb : c = b
    · subst hcb
      rw [hkey]
      refine Or.inr (find_only (hi.mem c) hkey fun a ha => ?_)
      rw [hother a ha]
      exact hnone a
    · rw [hother c hcb]
      refine (hi.first c).imp (fun hfresh => ⟨by rw [hother c hcb]; exact hfresh.block,
        by rw [hother c hcb]; exact hfresh.invalid, fun h' => ?_⟩) fun hf => ?_
      · have hold := hfresh.unused h'
        unfold State.uses at hold ⊢
        rw [hreader]
        by_cases hh : h' = h
        · rw [hh, Function.update_self]
          exact decide_eq_false fun heq => hcb (Option.some.inj heq).symm
        · rwa [Function.update_of_ne hh]
      · refine find_of_ne (b := b) (fun a ha => by rw [hother a ha]) ?_ hcb hf
        rw [hkey]
        exact (hnone c).symm
  -- `refs`: the caller is the only user that the recycled buffer has.
  · rw [tally_uses (s := s) (h := h) _ hreader, hframe.2.1, hidle]
    have hold := hi.refs c
    by_cases hcb : c = b
    · subst hcb
      have hnonneg : 0 ≤ tally Finset.univ (s.uses c) := Int.natCast_nonneg _
      have hone : (s'.buf c).refcnt = 1 := by rw [hself]
      rw [hone, if_neg (by rintro ⟨⟩), if_pos (show (Pc.waiting c k).buf = some c from rfl)]
      omega
    · have hne : (Pc.waiting b k).buf ≠ some c := fun heq => hcb (Option.some.inj heq).symm
      rw [hother c hcb, if_neg (by rintro ⟨⟩), if_neg hne, hold]
      omega
  -- `lock`: nobody held the recycled buffer's lock, and the caller has not asked for it yet.
  · have hl : (s'.buf c).lock = (s.buf c).lock := by
      by_cases hcb : c = b
      · rw [hcb, hself]
      · rw [hother c hcb]
    rw [hl, hi.lock, hreader]
    by_cases hh : h' = h
    · rw [hh, Function.update_self, hidle]
      exact Iff.rfl
    · rw [Function.update_of_ne hh]
  · rw [hreader] at hc
    by_cases hh : h' = h
    · rw [hh, Function.update_self] at hc
      cases hc
      exact hkey
    · rw [Function.update_of_ne hh] at hc
      have hcb : c ≠ b := by
        rintro rfl
        have hu : s.uses c h' = true := decide_eq_true (Pc.buf_of_at hc)
        rw [hnobody h'] at hu
        cases hu
      rw [hother c hcb]
      exact hi.block h' c k' hc
  · rw [hreader] at hc
    by_cases hh : h' = h
    · rw [hh, Function.update_self] at hc
      cases hc
    · rw [Function.update_of_ne hh] at hc
      have hcb : c ≠ b := by
        rintro rfl
        have hu : s.uses c h' = true := decide_eq_true (by rw [hc]; rfl)
        rw [hnobody h'] at hu
        cases hu
      rw [hother c hcb]
      exact hi.holding h' c k' hc
  -- `contents`: the recycled buffer is invalid, and leaving its old block does not touch what the
  -- others last left.
  · have hcb : c ≠ b := by
      rintro rfl
      rw [hinvalid] at hv
      cases hv
    rw [hother c hcb] at hv ⊢
    have hold := hi.contents c hv
    split
    · next hvb =>
      have hne : (s.buf b).block ≠ (s.buf c).block := fun heq =>
        hcb (hi.unique (not_fresh_of_valid hvb) (not_fresh_of_valid hv) heq).symm
      rw [lastLeft_append]
      exact (if_neg hne).trans hold
    · rw [List.append_nil]
      exact hold
  -- `empty`: the only block that has lost its buffer is the recycled one, and the log says so.
  · have hothers : ∀ c, c ≠ b → (s.buf c).block = k' → (s.buf c).valid = false := by
      intro c hcb hc
      rw [← hother c hcb] at hc ⊢
      exact hk' c hc
    split
    · rw [lastLeft_append]
      by_cases heq : (s.buf b).block = k'
      · exact if_pos heq
      · refine (if_neg heq).trans (hi.empty k' fun c hc => hothers c ?_ hc)
        rintro rfl
        exact heq hc
    · next hvb =>
      rw [List.append_nil]
      refine hi.empty k' fun c hc => ?_
      by_cases hcb : c = b
      · rw [hcb]
        exact Bool.eq_false_of_not_eq_true hvb
      · exact hothers c hcb hc
  · rw [hframe.2.2, hi.disk]
    split
    · rw [lastWritten_append]
      rfl
    · rw [List.append_nil]

/-! ## Every run -/

omit [Fintype ι] in
/-- A buffer that is found keeps its contents. -/
theorem happened_hit :
    happened s (.bget h k)
      ((s.onBuf b fun x => { x with refcnt := x.refcnt + 1 }).setReader h (.waiting b k)) = [] := by
  have hvalid : ((s.onBuf b fun x => { x with refcnt := x.refcnt + 1 }).buf b).valid =
    (s.buf b).valid :=
    onBuf_keeps (·.valid) rfl b
  simp only [happened, setReader_self]
  rw [if_neg]
  show ¬ ((s.buf b).valid && !((s.onBuf b fun x => { x with refcnt := x.refcnt + 1 }).buf
    b).valid) = true
  rw [hvalid]
  cases (s.buf b).valid <;> decide

omit [Fintype ι] in
/-- A buffer that is recycled loses the contents that it has. -/
theorem happened_recycle :
    happened s (.bget h k)
        ((s.onBuf b fun x => { x with block := k, valid := false, refcnt := 1 }).setReader h
          (.waiting b k)) =
      if (s.buf b).valid then [.recycled (s.buf b).block] else [] := by
  have hinvalid :
      ((s.onBuf b fun x => { x with block := k, valid := false, refcnt := 1 }).buf b).valid =
      false := by
    rw [onBuf_self]
  simp only [happened, setReader_self]
  show (if ((s.buf b).valid && !((s.onBuf b fun x =>
    { x with block := k, valid := false, refcnt := 1 }).buf b).valid) = true then _ else _) = _
  rw [hinvalid, Bool.not_false, Bool.and_true]

/-- **Every step keeps the invariant.** -/
theorem Inv.step {e : Event ι V} (hi : Inv d l log s) (hstep : next s e = some s') :
    ∃ l', Inv d l' (log ++ happened s e s') s' := by
  have hnothing : ∀ {l' : List Ix} {s₁ : State ι V}, Inv d l' log s₁ → Inv d l' (log ++ []) s₁ := by
    intro l' s₁ h₁
    rwa [List.append_nil]
  cases e with
  | bget h k =>
    simp only [next] at hstep
    split at hstep
    · next hidle =>
      obtain ⟨⟨b, s₁⟩, hget, rfl⟩ := Option.map_eq_some_iff.mp hstep
      cases hi.got hget with
      | hit found =>
        rw [happened_hit]
        exact ⟨l, hnothing (hi.hit hidle found)⟩
      | recycle missing unused =>
        rw [happened_recycle]
        exact ⟨l, hi.recycle hidle missing unused⟩
    · cases hstep
  | acquire h =>
    simp only [next] at hstep
    split at hstep
    · next b k hpc =>
      split at hstep
      · next hfree =>
        obtain rfl := Option.some.inj hstep
        exact ⟨l, hnothing (hi.acquire hpc hfree)⟩
      · cases hstep
    · cases hstep
  | fill h =>
    simp only [next] at hstep
    split at hstep
    · next b k hpc =>
      obtain rfl := Option.some.inj hstep
      have hfill := hi.fill hpc
      rw [← fill_data] at hfill
      simp only [happened, hpc]
      exact ⟨l, hfill⟩
    · cases hstep
  | store h v =>
    simp only [next] at hstep
    split at hstep
    · next b k hpc =>
      obtain rfl := Option.some.inj hstep
      simp only [happened, hpc]
      exact ⟨l, hi.store hpc v⟩
    · cases hstep
  | bwrite h =>
    simp only [next] at hstep
    split at hstep
    · next b k hpc =>
      split at hstep
      · obtain rfl := Option.some.inj hstep
        have hkey : (s.buf b).block = k := hi.block h b k (by rw [hpc]; rfl)
        simp only [happened, hpc]
        rw [← hkey]
        exact ⟨l, hi.bwrite b⟩
      · cases hstep
    · cases hstep
  | unlock h =>
    simp only [next] at hstep
    split at hstep
    · next b k hpc =>
      split at hstep
      · next hlock =>
        obtain rfl := Option.some.inj hstep
        exact ⟨l, hnothing (hi.unlock hpc hlock)⟩
      · cases hstep
    · cases hstep
  | brelse h =>
    simp only [next] at hstep
    split at hstep
    · next b hpc =>
      obtain rfl := Option.some.inj hstep
      obtain ⟨l', hi'⟩ := hi.brelse hpc
      exact ⟨l', hnothing hi'⟩
    · cases hstep
  | bpin b =>
    obtain rfl := Option.some.inj hstep
    exact ⟨l, hnothing (hi.pin (n := (s.buf b).refcnt + 1) (by omega))⟩
  | bunpin b =>
    simp only [next] at hstep
    split at hstep
    · next hpos =>
      obtain rfl := Option.some.inj hstep
      have hrefs := hi.refs b
      have hnonneg : 0 ≤ tally Finset.univ (s.uses b) := Int.natCast_nonneg _
      exact ⟨l, hnothing (hi.pin (n := (s.buf b).refcnt - 1) (by omega))⟩
    · cases hstep

omit [Fintype ι] [DecidableEq ι] in
/-- The ring after `binit`. -/
theorem ring_binit (r : Links Node) :
    (binit r).Ring none ((List.finRange nbuf).reverse.map some) := by
  have hadd : ∀ (bs l : List Ix) (r : Links Node), r.Ring none (l.map some) → (bs ++ l).Nodup →
      (bs.foldl (fun r b => r.insertAfter none (some b)) r).Ring none
      ((bs.reverse ++ l).map some) := by
    intro bs
    induction bs with
    | nil => exact fun l r hr _ => hr
    | cons b bs ih =>
      intro l r hr hnd
      rw [List.cons_append, List.nodup_cons] at hnd
      have hb : some b ∉ none :: l.map some := by
        simpa using fun hmem => hnd.1 (List.mem_append_right _ hmem)
      rw [List.foldl_cons, List.reverse_cons, List.append_assoc]
      exact ih (b :: l) _ (hr.insertAfter hb) (List.nodup_middle.mpr (List.nodup_cons.mpr hnd))
  have hall := hadd (List.finRange nbuf) [] (r.close none) (Links.ring_close r none)
    (by rw [List.append_nil]; exact List.nodup_finRange nbuf)
  rwa [List.append_nil] at hall

omit [DecidableEq ι] in
theorem Inv.init (d : Uint → V) (junk : Ix → V) (r : Links Node) :
    Inv (ι := ι) d (List.finRange nbuf).reverse [] (init d junk r) where
  ring := ring_binit r
  all := List.reverse_perm _
  first b := Or.inl ⟨rfl, rfl, fun _ => rfl⟩
  refs b := by
    have hzero : tally Finset.univ ((Bio.init d junk r : State ι V).uses b) = 0 :=
      tally_eq_zero fun _ _ => rfl
    rw [hzero]
    rfl
  lock h b := iff_of_false (fun hl => (nomatch hl)) fun hl => (nomatch hl)
  block h b k hc := (nomatch hc)
  holding h b k hc := (nomatch hc)
  contents b hv := (nomatch hv)
  empty k _ := rfl
  disk x := rfl

/-- **The cache holds one copy of each block**, after what the log says: the ring goes through
every buffer once, a block has one buffer, a buffer with references keeps its block, and `bread`
returns what was last left in the buffer of the block or, when it was recycled since, what was
last written to the disk. -/
structure OneCopy (d : Uint → V) (log : List (Mark V)) (s : State ι V) : Prop where
  ring : ∃ l : List Ix, l.Perm (List.finRange nbuf) ∧ s.links.Ring none (l.map some)
  unique : ∀ b c, (s.buf b).block.dev ≠ 0 → (s.buf b).block = (s.buf c).block → b = c
  kept : ∀ e s' b, next s e = some s' → 0 < (s.buf b).refcnt → (s'.buf b).block = (s.buf b).block
  held : ∀ h b k, (s.reader h).at = some (b, k) → (s.buf b).block = k ∧ 0 < (s.buf b).refcnt
  alone : ∀ h h' b k k', s.reader h = .holding b k → s.reader h' = .holding b k' → h = h'
  pinned : ∀ b, 0 < s.pins b → 0 < (s.buf b).refcnt
  coherent : ∀ h s', next s (.fill h) = some s' → ∃ b k, s.reader h = .locked b k ∧
    s'.reader h = .holding b k ∧ (s'.buf b).data = (lastLeft log k).getD (lastWritten
      d log k.sector)

/-- A buffer with references keeps its block. -/
theorem Inv.kept {e : Event ι V} (hi : Inv d l log s) (hstep : next s e = some s')
    (hr : 0 < (s.buf b).refcnt) :
    (s'.buf b).block = (s.buf b).block := by
  -- Only the recycling of `bget` gives a buffer another block, and it takes one without references.
  cases e with
  | bget h k =>
    simp only [next] at hstep
    split at hstep
    · obtain ⟨⟨c, s₁⟩, hget, rfl⟩ := Option.map_eq_some_iff.mp hstep
      cases hi.got hget with
      | hit found =>
        exact onBuf_keeps (s := s) (f := fun x => { x with refcnt := x.refcnt + 1 }) (·.block) rfl b
      | recycle missing unused =>
        have hbc : b ≠ c := by
          rintro rfl
          omega
        exact congrArg Buf.block (Function.update_of_ne hbc ..)
    · cases hstep
  | acquire h =>
    simp only [next] at hstep
    split at hstep
    · split at hstep
      · obtain rfl := Option.some.inj hstep
        exact onBuf_keeps (s := s) (f := fun x => { x with lock := some h }) (·.block) rfl b
      · cases hstep
    · cases hstep
  | fill h =>
    simp only [next] at hstep
    split at hstep
    · next c k hpc =>
      obtain rfl := Option.some.inj hstep
      refine onBuf_keeps (s := s) (b := c) (f := fun x => if x.valid then x else
        { x with data := s.disk x.block.sector, valid := true }) (·.block) ?_ b
      split <;> rfl
    · cases hstep
  | store h v =>
    simp only [next] at hstep
    split at hstep
    · obtain rfl := Option.some.inj hstep
      exact onBuf_keeps (s := s) (f := fun x => { x with data := v }) (·.block) rfl b
    · cases hstep
  | bwrite h =>
    simp only [next] at hstep
    split at hstep
    · split at hstep
      · obtain rfl := Option.some.inj hstep
        rfl
      · cases hstep
    · cases hstep
  | unlock h =>
    simp only [next] at hstep
    split at hstep
    · split at hstep
      · obtain rfl := Option.some.inj hstep
        exact onBuf_keeps (s := s) (f := fun x => { x with lock := none }) (·.block) rfl b
      · cases hstep
    · cases hstep
  | brelse h =>
    simp only [next] at hstep
    split at hstep
    · next c hpc =>
      obtain rfl := Option.some.inj hstep
      have hone := onBuf_keeps (s := s) (b := c) (f := fun x => { x with refcnt := x.refcnt - 1 })
        (·.block) rfl b
      unfold Bio.brelse
      dsimp only
      split
      · exact hone
      · exact hone
    · cases hstep
  | bpin c =>
    obtain rfl := Option.some.inj hstep
    exact onBuf_keeps (s := s) (f := fun x => { x with refcnt := x.refcnt + 1 }) (·.block) rfl b
  | bunpin c =>
    simp only [next] at hstep
    split at hstep
    · obtain rfl := Option.some.inj hstep
      exact onBuf_keeps (s := s) (f := fun x => { x with refcnt := x.refcnt - 1 }) (·.block) rfl b
    · cases hstep

omit [DecidableEq ι] in
/-- What `bread` finds is what was last left in the buffer, or last written to the disk. -/
theorem Inv.found_eq (hi : Inv d l log s) (hpc : s.reader h = .locked b k) :
    s.found b = (lastLeft log k).getD (lastWritten d log k.sector) := by
  have hkey : (s.buf b).block = k := hi.block h b k (by rw [hpc]; rfl)
  have hused : ¬ s.Fresh b := not_fresh_of_uses (h := h) (decide_eq_true (by rw [hpc]; rfl))
  unfold State.found
  cases hv : (s.buf b).valid with
  | true =>
    rw [if_pos rfl, ← hkey, hi.contents b hv]
    rfl
  | false =>
    -- no other buffer has the block
    have hnone : lastLeft log k = none := by
      refine hi.empty k fun c hc => ?_
      by_contra hvc
      have hvc' := Bool.eq_true_of_not_eq_false hvc
      rw [hi.unique (not_fresh_of_valid hvc') hused (hc.trans hkey.symm), hv] at hvc'
      cases hvc'
    rw [if_neg (by decide), hnone, hkey, hi.disk]
    rfl

theorem Inv.oneCopy (hi : Inv d l log s) : OneCopy d log s where
  ring := ⟨l, hi.all, hi.ring⟩
  unique b c hdev heq := by
    have hused : ∀ a, (s.buf a).block.dev ≠ 0 → ¬ s.Fresh a := fun a ha hfresh =>
      ha (by rw [hfresh.block])
    exact hi.unique (hused b hdev) (hused c (by rwa [← heq])) heq
  kept e s' b hstep hr := hi.kept hstep hr
  held h b k hat := ⟨hi.block h b k hat, hi.referenced (h := h) (decide_eq_true (Pc.buf_of_at hat))⟩
  alone h h' b k k' hh hh' := by
    have hl := (hi.lock h b).mpr (by rw [hh]; rfl)
    have hl' := (hi.lock h' b).mpr (by rw [hh']; rfl)
    rw [hl] at hl'
    exact Option.some.inj hl'
  pinned b hpos := by
    have hrefs := hi.refs b
    have hnonneg : 0 ≤ tally Finset.univ (s.uses b) := Int.natCast_nonneg _
    omega
  coherent h s' hstep := by
    simp only [next] at hstep
    split at hstep
    · next b k hpc =>
      obtain rfl := Option.some.inj hstep
      exact ⟨b, k, hpc, setReader_self .., (fill_data s b).trans (hi.found_eq hpc)⟩
    · cases hstep

/-- **The buffer cache holds one copy of each block**, for any number of readers and in every
run. -/
theorem one_copy {junk : Ix → V} {r : Links Node}
    (hrun : Run.Recorded Step happened (init d junk r) log s) : OneCopy d log s := by
  have hinv : ∃ l, Inv d l log s :=
    hrun.invariant (I := fun s log => ∃ l, Inv d l log s) (fun _ _ _ _ ⟨_, hi⟩ hs => hi.step hs)
      ⟨_, Inv.init d junk r⟩
  obtain ⟨l, hi⟩ := hinv
  exact hi.oneCopy

/-- The first reader changes block 7, writes it to the disk and gives it back. The others get a
buffer each, so that the buffer of block 7 is the only unused one; the first reader reads block 8
into it, and then asks for block 7 again. -/
def writeAndReadBack : List (Event Ix Nat) :=
  [[.bget 0 ⟨1, 7⟩, .acquire 0, .fill 0, .store 0 5, .bwrite 0, .unlock 0, .brelse 0],
    (List.finRange nbuf).tail.map fun i => .bget i ⟨1, BitVec.ofNat 32 (100 + i)⟩,
    [.bget 0 ⟨1, 8⟩, .acquire 0, .fill 0, .unlock 0, .brelse 0, .bget 0 ⟨1, 7⟩,
      .acquire 0]].flatten

/-- A cache of readers that are as many as the buffers, over a disk full of threes. -/
def threes : State Ix Nat := init (fun _ => 3) (fun _ => 0) ⟨id, id⟩

set_option maxRecDepth 100000 in
/-- The buffer of block 7 was recycled, and its last contents are on the disk: `bread` returns
them. -/
theorem one_copy_read_back : ∃ log s, Run.Recorded Step happened threes log s ∧
    lastLeft log ⟨1, 7⟩ = none ∧ lastWritten (fun _ => 3) log (Block.sector ⟨1, 7⟩) = 5 ∧
    ∃ b s', next s (.fill 0) = some s' ∧ s'.reader 0 = .holding b ⟨1, 7⟩ ∧ (s'.buf b).data = 5 := by
  have hsome : (Run.afterRecorded next happened writeAndReadBack threes).map (fun r =>
      (lastLeft r.1 ⟨1, 7⟩, lastWritten (fun _ => 3) r.1 (Block.sector ⟨1, 7⟩),
        (r.2.reader 0).at.map (·.2), (next r.2 (.fill 0)).isSome)) =
      some (none, 5, some ⟨1, 7⟩, true) := by
    decide +kernel
  obtain ⟨⟨log, s⟩, hs, heq⟩ := Option.map_eq_some_iff.mp hsome
  simp only [Prod.mk.injEq] at heq
  obtain ⟨hleft, hwritten, hat, hfill⟩ := heq
  have hrun : Run.Recorded Step happened threes ([] ++ log) s :=
    Run.recorded_of_after (fun _ _ _ h => h) writeAndReadBack (.nil threes) hs
  rw [List.nil_append] at hrun
  obtain ⟨s', hs'⟩ := Option.isSome_iff_exists.mp hfill
  obtain ⟨b, k, hlocked, hholding, hdata⟩ := (one_copy hrun).coherent 0 s' hs'
  obtain rfl : k = ⟨1, 7⟩ := by
    rw [hlocked] at hat
    exact Option.some.inj hat
  refine ⟨log, s, hrun, hleft, hwritten, b, s', hs', hholding, hdata.trans ?_⟩
  rw [hleft, hwritten]
  rfl

end Xv6.Bio
