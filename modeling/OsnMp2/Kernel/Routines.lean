import OsnMp2.Kernel.Interrupts
import OsnMp2.Kernel.SleepLock

/-!
# The kernel keeps the discipline of its locks

What the functions of the kernel do with spinlocks, sleeplocks and `sleep`. How often a function
goes round a loop, which slot it finds and which branch it takes depends on data that is not here;
these are parameters, and a program of the kernel has the code for each of their values.

A routine is code that can be run wherever its locks may be taken: it gives back what it takes,
and it announces the waits that it may have ended. The functions are routines, and so is what
is put together from them.

Some code of the kernel keeps no discipline of this kind, and is not here: `iput` where it frees the
inode, with `itable.lock` held when it takes the sleeplock; a page fault of the kernel in `copyin`
or `copyout` while a spinlock is held; and `pipewrite` where it finds that its process is killed
after it has put bytes into the pipe, since it then returns without `wakeup`. Not here either are
the first part of `forkret` of the first process, and `push_off` and `pop_off` without a lock, as in
`myproc` and `uartputc_sync`.

## Main definitions

* `Spinlock`, `Cond`, `Vars`, `Act`: the locks, what processes wait for, the data, and what is done
  with it
* `kernel`: the kernel with these, and with sleeplocks
* `Routine`: the code gives back what it takes, and announces what it ends
* `kernelCode`: the handlers of interrupts, and what a process does in the kernel

## Main results

* `kernelCode_checked`, `kernelCode_masked`, `kernelCode_calm`, `kernelCode_sections`: the
  kernel keeps the discipline
* `kernelCode_sound`: what follows from it for every run of the kernel
-/

set_option linter.unusedSectionVars false

namespace Xv6.Sched

/-- The spinlocks but those of processes and sleeplocks; `I` are the pipes. -/
inductive Spinlock (I : Type)
  | wait
  | cons
  | tx
  | vdisk
  | log
  | ticks
  | pipe (i : I)
  | pid
  | kmem
  | ftable
  | itable
  | bcache
  | pr
deriving DecidableEq

/-- No other lock is taken while one of these is held. -/
def Spinlock.leaf {I : Type} : Spinlock I → Bool
  | .pid | .kmem | .ftable | .itable | .bcache | .pr => true
  | _ => false

/-- What processes sleep for, in the order of the calls of `sleep` in `kwait`, `consoleread`,
`uartwrite`, `virtio_disk_rw` (two), `begin_op`, `piperead`, `pipewrite` and `sys_pause`. -/
inductive Cond (P B I : Type)
  | child (p : P)
  | input
  | transmit
  | descs
  | disk (b : B)
  | log
  | pipeData (i : I)
  | pipeRoom (i : I)
  | pause (ticks0 n : BitVec 32)
deriving DecidableEq

/-- What is under `wait_lock`. `exited` is set where `kexit` is about to make the process a
`ZOMBIE`. -/
structure Family (P : Type) where
  parent : P → Option P
  exited : P → Bool

inductive FamilyAct (P : Type)
  /-- `np->parent = p` -/
  | adopt (np p : P)
  /-- `if(pp->parent == p) pp->parent = initproc` -/
  | reparent (pp p initproc : P)
  | exit (p parent : P)
  /-- `pp->parent = 0` -/
  | reap (pp : P)

/-- What is under `cons.lock`. -/
structure Console where
  r : BitVec 32
  w : BitVec 32
  e : BitVec 32

inductive ConsoleAct
  /-- `cons.r++`, of a character that `consoleread` keeps -/
  | take
  | edit (e : BitVec 32)
  /-- `cons.w = cons.e` -/
  | line (e : BitVec 32)

/-- What is under `disk.vdisk_lock`: how many descriptors are free, and `b->disk`. -/
structure Disk (B : Type) where
  free : Nat
  disk : B → Bool

inductive DiskAct (B : Type)
  /-- `alloc3_desc`, where it finds three -/
  | allocDescs
  | freeDesc
  /-- `b->disk = 1` -/
  | submit (b : B)
  /-- `b->disk = 0` -/
  | served (b : B)

/-- What is under `log.lock`; `n` is `log.lh.n`. -/
structure LogVars where
  committing : Bool
  outstanding : Nat
  n : Nat

inductive LogAct
  | beginOp
  /-- `log.outstanding -= 1`, with operations left -/
  | endOp
  /-- `log.outstanding -= 1; log.committing = 1` -/
  | lastOp
  | logWrite
  /-- `log.lh.n = 0`, in `commit` -/
  | clear
  /-- `log.committing = 0` -/
  | committed

/-- `struct pipe`, without its bytes. -/
structure Pipe where
  nread : BitVec 32 := 0
  nwrite : BitVec 32 := 0
  readopen : Bool := false
  writeopen : Bool := false

inductive PipeAct
  /-- `pipealloc`, of a pipe that is not in use -/
  | alloc
  /-- `pi->nwrite++`, where the pipe is not full -/
  | put
  /-- `pi->nread++`, where the pipe is not empty -/
  | get
  | closeRead
  | closeWrite

/-- The data that processes wait for, by the locks that it is under. -/
structure Vars (P B I : Type) where
  family : Family P
  console : Console
  txBusy : Bool
  disk : Disk B
  log : LogVars
  pipe : I → Pipe
  ticks : BitVec 32

/-- What is done with the data between two instructions that others can see. -/
inductive Act (P B I : Type)
  | family (a : FamilyAct P)
  | console (a : ConsoleAct)
  /-- `tx_busy = busy` -/
  | tx (busy : Bool)
  | disk (a : DiskAct B)
  | log (a : LogAct)
  | pipe (i : I) (a : PipeAct)
  | tick

section

variable {P B I Z : Type} [DecidableEq P] [DecidableEq B] [DecidableEq I] [DecidableEq Z]

/-! ## The data -/

def FamilyAct.perform (d : Family P) : FamilyAct P → Family P
  | .adopt np p => ⟨Function.update d.parent np (some p), Function.update d.exited np false⟩
  | .reparent pp p initproc =>
    -- The test that `reparent` makes at each slot.
    if d.parent pp = some p then { d with parent := Function.update d.parent pp (some initproc) }
      else d
  | .exit p parent => if d.parent p = some parent then
      { d with exited := Function.update d.exited p true } else d
  | .reap pp => ⟨Function.update d.parent pp none, Function.update d.exited pp false⟩

def ConsoleAct.perform (d : Console) : ConsoleAct → Console
  | .take => if d.r = d.w then d else { d with r := d.r + 1 }
  | .edit e => { d with e := e }
  | .line e => { d with w := e, e := e }

def DiskAct.perform (d : Disk B) : DiskAct B → Disk B
  | .allocDescs => if 3 ≤ d.free then { d with free := d.free - 3 } else d
  | .freeDesc => { d with free := d.free + 1 }
  | .submit b => { d with disk := Function.update d.disk b true }
  | .served b => { d with disk := Function.update d.disk b false }

def LogAct.perform (d : LogVars) : LogAct → LogVars
  | .beginOp => { d with outstanding := d.outstanding + 1 }
  | .endOp => { d with outstanding := d.outstanding - 1 }
  | .lastOp => { d with outstanding := d.outstanding - 1, committing := true }
  | .logWrite => { d with n := d.n + 1 }
  | .clear => if d.committing then { d with n := 0 } else d
  | .committed => { d with committing := false }

def PipeAct.perform (d : Pipe) : PipeAct → Pipe
  | .alloc => if d.readopen || d.writeopen then d else { readopen := true, writeopen := true }
  | .put => if d.nwrite = d.nread + 512 then d else { d with nwrite := d.nwrite + 1 }
  | .get => if d.nread = d.nwrite then d else { d with nread := d.nread + 1 }
  | .closeRead => { d with readopen := false }
  | .closeWrite => { d with writeopen := false }

/-- What an action does. -/
def Act.perform (d : Vars P B I) : Act P B I → Vars P B I
  | .family a => { d with family := a.perform d.family }
  | .console a => { d with console := a.perform d.console }
  | .tx busy => { d with txBusy := busy }
  | .disk a => { d with disk := a.perform d.disk }
  | .log a => { d with log := a.perform d.log }
  | .pipe i a => { d with pipe := Function.update d.pipe i (a.perform (d.pipe i)) }
  | .tick => { d with ticks := d.ticks + 1 }

/-- The loop around `sleep` goes on. `kwait` waits while no child has exited; it leaves
earlier when it has none. -/
def Cond.holds (procs : List P) (d : Vars P B I) : Cond P B I → Bool
  | .child p => procs.all fun q => !(decide (d.family.parent q = some p) && d.family.exited q)
  | .input => d.console.r = d.console.w
  | .transmit => d.txBusy
  | .descs => d.disk.free < 3
  | .disk b => d.disk.disk b
  -- `LOGBLOCKS` is 30, and `MAXOPBLOCKS` is 10.
  | .log => d.log.committing || decide (30 < d.log.n + (d.log.outstanding + 1) * 10)
  -- Both loops end when the other side is closed.
  | .pipeData i => decide ((d.pipe i).nread = (d.pipe i).nwrite) && (d.pipe i).writeopen
  | .pipeRoom i => decide ((d.pipe i).nwrite = (d.pipe i).nread + 512) && (d.pipe i).readopen
  -- The difference of two `uint`s, also when `ticks` has run over.
  | .pause ticks0 n => d.ticks - ticks0 < n

/-- The lock that is given to `sleep`. -/
def Cond.guard : Cond P B I → Spinlock I
  | .child _ => .wait
  | .input => .cons
  | .transmit => .tx
  | .descs | .disk _ => .vdisk
  | .log => .log
  | .pipeData i | .pipeRoom i => .pipe i
  | .pause .. => .ticks

/-- All calls of `sys_pause` sleep on `&ticks`. -/
def Cond.chan : Cond P B I → Cond P B I
  | .pause .. => .pause 0 0
  | w => w

/-- The loops that leave when the process is killed. -/
def Cond.killable : Cond P B I → Bool
  | .child _ | .input | .pipeData _ | .pipeRoom _ | .pause .. => true
  | _ => false

/-- The data under the locks of the kernel. -/
def vars (procs : List P) : Kernel P (Spinlock I) (Cond P B I) (Act P B I) (Vars P B I) where
  procs := procs
  perform a _ d := a.perform d
  cond w d := w.holds procs d
  guard := Cond.guard
  chan := Cond.chan
  killable := Cond.killable

/-- The code of threads of the kernel. -/
abbrev Code (P B I Z : Type) := List
    (Instr P (Z ⊕ Spinlock I) (Z ⊕ Cond P B I) (SleepAct Z ⊕ Act P B I))

/-- `wakeup`, on the channel of a condition. -/
def wake (procs : List P) (me : Option P) (w : Cond P B I) : Code P B I Z :=
  wakeup procs me (.inr w)

/-- What is done in each round of a loop before the test. `kwait` looks at the children, up to the
first that has exited; the loops that can be killed call `killed`, and `pipewrite` does it even when
the pipe is not full; `alloc3_desc` gives back what it has found. `pipewrite` also calls `wakeup`
again in each round; while the pipe stays full nobody sleeps for bytes. -/
def rounds (procs : List P) (p : P) (w : Cond P B I) (d : Vars P B I) : Code P B I Z :=
  match w with
  | .child _ =>
    -- The lock of a child is taken to see whether it is a ZOMBIE.
    let kids := procs.filter fun q => d.family.parent q = some p
    (kids.takeWhile fun q => !d.family.exited q).flatMap look ++
      if kids ≠ [] ∧ kids.all fun q => !d.family.exited q then killed p else []
  -- `free_desc` wakes the waiters up, for each descriptor that it gives back.
  | .descs => if d.disk.free < 3 then
      (List.replicate d.disk.free (wake procs (some p) .descs)).flatten else []
  | .pipeRoom i => if (d.pipe i).readopen then killed p else []
  | w => if w.killable && w.holds procs d then killed p else []

/-- The kernel, with its sleeplocks. -/
abbrev kernel (Z : Type) [DecidableEq Z] (procs : List P) :
    Kernel P (Z ⊕ Spinlock I) (Z ⊕ Cond P B I) (SleepAct Z ⊕ Act P B I)
    ((Z → Sleeplock P) × Vars P B I) :=
  withSleeplocks Z (vars procs) (rounds procs)

/-- The order of the locks: those of conditions and sleeplocks, those of processes, and
those that are taken last. -/
def kernelRank : Lock P (Z ⊕ Spinlock I) → Nat
  -- `sleep` takes `p->lock` with the lock of a condition held.
  | .proc _ => 1
  | .other (.inl _) => 0
  | .other (.inr l) => if l.leaf then 2 else 0

/-! ## What an action ends -/

/-- The wait that an action may end. -/
def Act.wakes : Act P B I → Option (Cond P B I)
  -- `reparent` wakes init up for each child, since the child may have exited already.
  | .family (.reparent _ _ initproc) => some (.child initproc)
  | .family (.exit _ parent) => some (.child parent)
  | .console (.line _) => some .input
  | .tx false => some .transmit
  | .disk .freeDesc => some .descs
  | .disk (.served b) => some (.disk b)
  | .log .endOp | .log .committed => some .log
  | .pipe i .put | .pipe i .closeWrite => some (.pipeData i)
  | .pipe i .get | .pipe i .closeRead => some (.pipeRoom i)
  | .tick => some (.pause 0 0)
  | _ => none

/-- No child of the process has exited. -/
def Family.Waits (procs : List P) (d : Family P) (p : P) : Prop :=
  ∀ q ∈ procs, d.parent q = some p → d.exited q = false

theorem holds_child_iff {procs : List P} {d : Vars P B I} {p : P} :
    (Cond.child p).holds procs d = true ↔ d.family.Waits procs p := by
  simp [Cond.holds, Family.Waits, imp_iff_not_or]

/-- The parent waits on, unless it becomes the parent of a process, or a child of it exits. -/
theorem Family.Waits.perform {procs : List P} {d : Family P} {p : P} (h : d.Waits procs p)
    (a : FamilyAct P)
    (ha : (Act.family a : Act P B I).wakes ≠ some (.child p)) : (a.perform d).Waits procs p := by
  intro q hq hp
  cases a with
  | adopt np p' =>
    by_cases hqn : q = np
    · rw [hqn]
      exact Function.update_self ..
    · exact (Function.update_of_ne hqn ..).trans
        (h q hq ((Function.update_of_ne hqn ..).symm.trans hp))
  | reap pp =>
    by_cases hqn : q = pp
    · rw [hqn]
      exact Function.update_self ..
    · exact (Function.update_of_ne hqn ..).trans
        (h q hq ((Function.update_of_ne hqn ..).symm.trans hp))
  | reparent pp p' initproc =>
    by_cases hpp : d.parent pp = some p'
    · rw [FamilyAct.perform, if_pos hpp] at hp ⊢
      refine h q hq ?_
      by_cases hqp : q = pp
      · have hpp' : Function.update d.parent pp (some initproc) pp = some p := hqp ▸ hp
        rw [Function.update_self] at hpp'
        obtain rfl := Option.some.inj hpp'
        exact absurd rfl ha
      · exact (Function.update_of_ne hqp ..).symm.trans hp
    · rw [FamilyAct.perform, if_neg hpp] at hp ⊢
      exact h q hq hp
  | exit p' parent =>
    by_cases hp' : d.parent p' = some parent
    · rw [FamilyAct.perform, if_pos hp'] at hp ⊢
      by_cases hqp : q = p'
      · rw [hqp] at hp
        obtain rfl := Option.some.inj (hp'.symm.trans hp)
        exact absurd rfl ha
      · exact (Function.update_of_ne hqp ..).trans (h q hq hp)
    · rw [FamilyAct.perform, if_neg hp'] at hp ⊢
      exact h q hq hp

/-- A pipe without bytes gets some from a writer only, and its writers leave by `pipeclose`. -/
theorem pipeData_perform {d : Pipe} {a : PipeAct} (hd : d.nread = d.nwrite ∧ d.writeopen = true)
    (hput : a ≠ .put)
    (hclose : a ≠ .closeWrite) : (a.perform d).nread = (a.perform d).nwrite ∧
    (a.perform d).writeopen = true := by
  cases a with
  | alloc =>
    rw [PipeAct.perform, hd.2, Bool.or_true, if_pos rfl]
    exact hd
  | put => exact absurd rfl hput
  | get =>
    rw [PipeAct.perform, if_pos hd.1]
    exact hd
  | closeRead => exact hd
  | closeWrite => exact absurd rfl hclose

/-- A full pipe gets room from a reader only. -/
theorem pipeRoom_perform {d : Pipe} {a : PipeAct}
    (hd : d.nwrite = d.nread + 512 ∧ d.readopen = true) (hget : a ≠ .get)
    (hclose : a ≠ .closeRead) : (a.perform d).nwrite = (a.perform d).nread + 512 ∧
    (a.perform d).readopen = true := by
  cases a with
  | alloc =>
    rw [PipeAct.perform, hd.2, Bool.true_or, if_pos rfl]
    exact hd
  | put =>
    rw [PipeAct.perform, if_pos hd.1]
    exact hd
  | get => exact absurd rfl hget
  | closeRead => exact absurd rfl hclose
  | closeWrite => exact hd

/-- `begin_op` waits on, unless an operation or a commit ends. -/
theorem log_perform {d : LogVars} {a : LogAct}
    (hd : d.committing = true ∨ 30 < d.n + (d.outstanding + 1) * 10)
    (hend : a ≠ .endOp) (hcommitted : a ≠ .committed) :
    (a.perform d).committing = true ∨ 30 <
    (a.perform d).n + ((a.perform d).outstanding + 1) * 10 := by
  cases a with
  | beginOp =>
    refine hd.imp_right fun hfull => ?_
    show 30 < d.n + (d.outstanding + 1 + 1) * 10
    omega
  | endOp => exact absurd rfl hend
  | lastOp => exact Or.inl rfl
  | logWrite =>
    refine hd.imp_right fun hfull => ?_
    show 30 < d.n + 1 + (d.outstanding + 1) * 10
    omega
  | clear =>
    by_cases hcommitting : d.committing = true
    · rw [LogAct.perform, if_pos hcommitting]
      exact Or.inl hcommitting
    · rw [LogAct.perform, if_neg hcommitting]
      exact hd
  | committed => exact absurd rfl hcommitted

/-- What is typed ends a wait where a line is complete. -/
theorem holds_console {procs : List P} {d : Vars P B I} {a : ConsoleAct} {w : Cond P B I}
    (hw : w.holds procs d = true)
    (ha : ∀ v, (Act.console a : Act P B I).wakes = some v → v.chan ≠ w.chan) :
    w.holds procs ((Act.console a).perform d) = true := by
  cases w with
  | input =>
    cases a with
    | take =>
      have hempty : d.console.r = d.console.w := of_decide_eq_true hw
      refine decide_eq_true ?_
      show (ConsoleAct.perform d.console .take).r = (ConsoleAct.perform d.console .take).w
      rw [ConsoleAct.perform, if_pos hempty]
      exact hempty
    | edit e => exact hw
    | line e => exact absurd rfl (ha .input rfl)
  | _ => exact hw

/-- A wait for descriptors ends where one is freed, and one for a buffer where it is served. -/
theorem holds_disk {procs : List P} {d : Vars P B I} {a : DiskAct B} {w : Cond P B I}
    (hw : w.holds procs d = true)
    (ha : ∀ v, (Act.disk a : Act P B I).wakes = some v → v.chan ≠ w.chan) :
    w.holds procs ((Act.disk a).perform d) = true := by
  cases w with
  | descs =>
    cases a with
    | allocDescs =>
      have hfew : d.disk.free < 3 := of_decide_eq_true hw
      refine decide_eq_true ?_
      show (DiskAct.perform d.disk .allocDescs).free < 3
      rw [DiskAct.perform, if_neg (Nat.not_le.mpr hfew)]
      exact hfew
    | freeDesc => exact absurd rfl (ha .descs rfl)
    | submit b => exact hw
    | served b => exact hw
  | disk b =>
    cases a with
    | allocDescs =>
      show (DiskAct.perform d.disk .allocDescs).disk b = true
      by_cases hthree : 3 ≤ d.disk.free
      · rw [DiskAct.perform, if_pos hthree]
        exact hw
      · rw [DiskAct.perform, if_neg hthree]
        exact hw
    | freeDesc => exact hw
    | submit b' =>
      show Function.update d.disk.disk b' true b = true
      by_cases hb : b = b'
      · rw [hb, Function.update_self]
      · rw [Function.update_of_ne hb]
        exact hw
    | served b' =>
      show Function.update d.disk.disk b' false b = true
      by_cases hb : b = b'
      · rw [hb] at ha
        exact absurd rfl (ha (.disk b') rfl)
      · rw [Function.update_of_ne hb]
        exact hw
  | _ => exact hw

/-- A wait for the log ends where an operation or a commit ends. -/
theorem holds_log {procs : List P} {d : Vars P B I} {a : LogAct} {w : Cond P B I}
    (hw : w.holds procs d = true)
    (ha : ∀ v, (Act.log a : Act P B I).wakes = some v → v.chan ≠ w.chan) :
    w.holds procs ((Act.log a).perform d) = true := by
  cases w with
  | log =>
    have hd : d.log.committing = true ∨ 30 < d.log.n + (d.log.outstanding + 1) * 10 := by
      simpa only [Cond.holds, Bool.or_eq_true, decide_eq_true_eq] using hw
    have hend : a ≠ .endOp := by
      rintro rfl
      exact ha .log rfl rfl
    have hcommitted : a ≠ .committed := by
      rintro rfl
      exact ha .log rfl rfl
    exact Bool.or_eq_true_iff.mpr ((log_perform hd hend hcommitted).imp_right decide_eq_true)
  | _ => exact hw

/-- A wait for a pipe ends by what is done with this pipe, at its other end. -/
theorem holds_pipe {procs : List P} {d : Vars P B I} {i : I} {a : PipeAct} {w : Cond P B I}
    (hw : w.holds procs d = true)
    (ha : ∀ v, (Act.pipe i a : Act P B I).wakes = some v → v.chan ≠ w.chan) :
    w.holds procs ((Act.pipe i a).perform d) = true := by
  cases w with
  | pipeData j =>
    by_cases hj : j = i
    · subst hj
      have hd : (d.pipe j).nread = (d.pipe j).nwrite ∧ (d.pipe j).writeopen = true := by
        simpa [Cond.holds] using hw
      have hput : a ≠ .put := by
        rintro rfl
        exact ha (.pipeData j) rfl rfl
      have hclose : a ≠ .closeWrite := by
        rintro rfl
        exact ha (.pipeData j) rfl rfl
      simpa [Cond.holds, Act.perform] using pipeData_perform hd hput hclose
    · simpa [Cond.holds, Act.perform, Function.update_of_ne hj] using hw
  | pipeRoom j =>
    by_cases hj : j = i
    · subst hj
      have hd : (d.pipe j).nwrite = (d.pipe j).nread + 512 ∧ (d.pipe j).readopen = true := by
        simpa [Cond.holds] using hw
      have hget : a ≠ .get := by
        rintro rfl
        exact ha (.pipeRoom j) rfl rfl
      have hclose : a ≠ .closeRead := by
        rintro rfl
        exact ha (.pipeRoom j) rfl rfl
      simpa [Cond.holds, Act.perform] using pipeRoom_perform hd hget hclose
    · simpa [Cond.holds, Act.perform, Function.update_of_ne hj] using hw
  | _ => exact hw

/-- **What is not announced does not end a wait.** -/
theorem Cond.holds_perform {procs : List P} {d : Vars P B I} {a : Act P B I} {w : Cond P B I}
    (hw : w.holds procs d = true) (ha : ∀ v, a.wakes = some v → v.chan ≠ w.chan) :
    w.holds procs (a.perform d) = true := by
  -- The data is in parts, and an action changes one of them.
  cases a with
  | family a =>
    cases w with
    | child p => exact holds_child_iff.mpr ((holds_child_iff.mp hw).perform a fun hc => ha _ hc rfl)
    | _ => exact hw
  | console a => exact holds_console hw ha
  | tx busy =>
    cases w with
    | transmit =>
      cases busy with
      | true => rfl
      | false => exact absurd rfl (ha .transmit rfl)
    | _ => exact hw
  | disk a => exact holds_disk hw ha
  | log a => exact holds_log hw ha
  | pipe i a => exact holds_pipe hw ha
  | tick =>
    cases w with
    | pause ticks0 n => exact absurd rfl (ha (.pause 0 0) rfl)
    | _ => exact hw

/-- The channel of a condition decides its lock. -/
theorem Cond.guard_of_chan {v w : Cond P B I} (h : v.chan = w.chan) : v.guard = w.guard := by
  have hchan : ∀ u : Cond P B I, u.chan.guard = u.guard := fun u => by cases u <;> rfl
  rw [← hchan v, h, hchan]

/-- An action on the data ends the waits that it announces. -/
theorem ends_kernel {procs : List P} {a : Act P B I} {w : Z ⊕ Cond P B I}
    (h : (kernel Z procs).Ends (.inr a) w) : ∃ v u, w = .inr v ∧ a.wakes = some u ∧
    u.chan = v.chan := by
  obtain ⟨me, d, htrue, hfalse⟩ := h
  cases w with
  | inl z => exact absurd (hfalse.symm.trans htrue) Bool.false_ne_true
  | inr v =>
    by_contra hc
    have hkeeps : v.holds procs (a.perform d.2) = true :=
      Cond.holds_perform htrue fun u hu heq => hc ⟨v, u, rfl, hu, heq⟩
    exact Bool.false_ne_true (hfalse.symm.trans hkeeps)

/-! ## Routines -/

/-- What the body of a function is made of: no part of `sleep` or of the end of `kexit`, nothing
that enables interrupts or leaves the kernel, and nothing of sleeplocks. -/
def Instr.Ordinary : Instr P (Z ⊕ Spinlock I) (Z ⊕ Cond P B I) (SleepAct Z ⊕ Act P B I) → Prop
  | .await (.inl _) | .test (.inl _) | .act (.inl _) => False
  | .setSleeping _ | .setZombie | .sret | .intrOn | .userret | .dispatch _ => False
  | _ => True

/-- All other processes are woken up before the lock of the condition is given back. -/
def Woken (procs : List P) (me : Option P) (w : Cond P B I) (k : Code P B I Z) : Prop :=
  ∀ q ∈ procs, me ≠ some q → Wakes (kernel Z procs) q (.inr w) k

/-- **A routine**, for a thread `me` that holds the locks `held`: it gives back what it takes, and
announces what it ends. -/
structure Routine (procs : List P) (me : Option P) (held : List (Lock P (Z ⊕ Spinlock I)))
    (f : Code P B I Z) : Prop where
  checked : ∀ k, Checked (kernel Z procs) kernelRank me .running held k →
    Checked (kernel Z procs) kernelRank me .running held (f ++ k)
  ordinary : ∀ i ∈ f, i.Ordinary

/-- A routine that leaves it to its caller to announce what it ends. -/
structure Ending (procs : List P) (me : Option P) (held : List (Lock P (Z ⊕ Spinlock I)))
    (w : Cond P B I) (f : Code P B I Z) : Prop where
  checked : ∀ k, Checked (kernel Z procs) kernelRank me .running held k → Woken procs me w k →
    Checked (kernel Z procs) kernelRank me .running held (f ++ k)
  woken : ∀ k, Woken procs me w k → Woken procs me w (f ++ k)
  ordinary : ∀ i ∈ f, i.Ordinary

/-- Code with a lock held. -/
def locked (l : Lock P (Z ⊕ Spinlock I)) (f : Code P B I Z) : Code P B I Z :=
  .acquire l :: (f ++ [.release l])

/-- Code that is run `n` times. -/
def times (n : Nat) (f : Code P B I Z) : Code P B I Z := (List.replicate n f).flatten

def act (a : Act P B I) : Instr P (Z ⊕ Spinlock I) (Z ⊕ Cond P B I) (SleepAct Z ⊕ Act P B I) :=
  .act (.inr a)

def test (w : Cond P B I) : Instr P (Z ⊕ Spinlock I) (Z ⊕ Cond P B I) (SleepAct Z ⊕ Act P B I) :=
  .test (.inr w)

def await (w : Cond P B I) : Instr P (Z ⊕ Spinlock I) (Z ⊕ Cond P B I) (SleepAct Z ⊕ Act P B I) :=
  .await (.inr w)

variable {procs : List P} {me : Option P} {held : List (Lock P (Z ⊕ Spinlock I))}
  {f g : Code P B I Z} {p q : P} {w : Cond P B I} {a : Act P B I}

protected theorem Routine.nil : Routine procs me held ([] : Code P B I Z) :=
  ⟨fun _ hk => hk, fun _ hi => absurd hi List.not_mem_nil⟩

protected theorem Routine.append (hf : Routine procs me held f) (hg : Routine procs me held g) :
    Routine procs me held (f ++ g) where
  checked k hk := by
    rw [List.append_assoc]
    exact hf.checked _ (hg.checked k hk)
  ordinary i hi := (List.mem_append.mp hi).elim (hf.ordinary i) (hg.ordinary i)

protected theorem Routine.flatten {fs : List (Code P B I Z)}
    (h : ∀ f ∈ fs, Routine procs me held f) : Routine procs me held fs.flatten := by
  induction fs with
  | nil => exact .nil
  | cons f fs ih =>
    rw [List.flatten_cons]
    exact (h f List.mem_cons_self).append (ih fun g hg => h g (List.mem_cons_of_mem _ hg))

protected theorem Routine.flatMap {α : Type} {xs : List α} {f : α → Code P B I Z}
    (h : ∀ x ∈ xs, Routine procs me held (f x)) : Routine procs me held (xs.flatMap f) :=
  .flatten fun g hg => by
    obtain ⟨x, hx, rfl⟩ := List.mem_map.mp hg
    exact h x hx

protected theorem Routine.times (n : Nat) (h : Routine procs me held f) :
    Routine procs me held (times n f) :=
  .flatten fun g hg => by
    rw [List.eq_of_mem_replicate hg]
    exact h

/-- A lock that comes after those that are held. -/
protected theorem Routine.locked {l : Lock P (Z ⊕ Spinlock I)}
    (hrank : ∀ h ∈ held, kernelRank h < kernelRank l)
    (h : Routine procs me (l :: held) f) : Routine procs me held (locked l f) where
  checked k hk := by
    refine ⟨rfl, hrank, ?_⟩
    show Checked _ _ _ _ _ (f ++ [.release l] ++ k)
    rw [List.append_assoc]
    refine h.checked _ ⟨List.mem_cons_self, Or.inl rfl, ?_⟩
    rw [List.erase_cons_head]
    exact hk
  ordinary i hi := by
    rcases List.mem_cons.mp hi with rfl | hi
    · trivial
    rcases List.mem_append.mp hi with hi | hi
    · exact h.ordinary i hi
    · rw [List.mem_singleton.mp hi]
      trivial

protected theorem Routine.act (ha : a.wakes = none) : Routine procs me held [act a] where
  checked k hk := by
    refine ⟨rfl, fun w hw => ?_, hk⟩
    obtain ⟨v, u, -, hu, -⟩ := ends_kernel hw
    rw [ha] at hu
    cases hu
  ordinary i hi := by
    rw [List.mem_singleton.mp hi]
    trivial

/-- The loop around `sleep`. -/
protected theorem Routine.await {l : Spinlock I} (hl : w.guard = l) :
    Routine procs (some p) [.other (.inr l)] ([await w] : Code P B I Z) where
  checked _ hk := by
    subst hl
    exact ⟨rfl, rfl, rfl, hk⟩
  ordinary i hi := by
    rw [List.mem_singleton.mp hi]
    trivial

/-- The loop, from its first test on. -/
protected theorem Routine.test {l : Spinlock I} (hl : w.guard = l) :
    Routine procs (some p) [.other (.inr l)] ([test w] : Code P B I Z) where
  checked _ hk := by
    subst hl
    exact ⟨rfl, rfl, rfl, hk⟩
  ordinary i hi := by
    rw [List.mem_singleton.mp hi]
    trivial

protected theorem Routine.look (hrank : ∀ h ∈ held, kernelRank h < 1) :
    Routine procs me held (look q : Code P B I Z) :=
  Routine.locked (f := []) hrank .nil

theorem ordinary_wake : ∀ i ∈ (wake procs me w : Code P B I Z), i.Ordinary := by
  intro i hi
  obtain ⟨q, -, hq⟩ := List.mem_flatMap.mp hi
  simp only [List.mem_cons, List.not_mem_nil, or_false] at hq
  rcases hq with rfl | rfl | rfl <;> trivial

protected theorem Routine.wake (hrank : ∀ h ∈ held, kernelRank h < 1) :
    Routine procs me held (wake procs me w) where
  checked _ hk := checked_wakeup procs (fun _ => hrank) hk
  ordinary := ordinary_wake

/-- The wakeups of a condition are those of the others that are waited for on its channel. -/
theorem Woken.wakes {k : Code P B I Z} {v : Cond P B I} (h : Woken procs me w k)
    (hchan : w.chan = v.chan) : ∀ q ∈ procs, me ≠ some q → Wakes (kernel Z procs) q (.inr v) k := by
  intro q hq hne
  have hw := h q hq hne
  clear h
  have hguard := Cond.guard_of_chan hchan
  induction k with
  | nil => exact hw
  | cons i k ih =>
    cases i
    case wake q' w' =>
      refine hw.imp (fun heq => ⟨heq.1, heq.2.trans ?_⟩) ih
      exact congrArg Sum.inr hchan
    case release l =>
      refine ⟨fun hc => hw.1 (hc.trans ?_), ih hw.2⟩
      exact congrArg (fun l => Lock.other (Sum.inr l)) hguard.symm
    case await => exact hw
    case test => exact hw
    all_goals exact ih hw

protected theorem Ending.act (ha : a.wakes = some w) (hguard : .other (.inr w.guard) ∈ held) :
    Ending procs me held w [act a] where
  checked k hk hw := by
    refine ⟨rfl, fun w₀ hends => ?_, hk⟩
    obtain ⟨v, u, rfl, hu, hchan⟩ := ends_kernel hends
    obtain rfl := Option.some.inj (ha.symm.trans hu)
    refine ⟨?_, hw.wakes hchan⟩
    rw [Cond.guard_of_chan hchan] at hguard
    exact hguard
  woken _ hw := hw
  ordinary i hi := by
    rw [List.mem_singleton.mp hi]
    trivial

protected theorem Ending.append (hf : Ending procs me held w f) (hg : Ending procs me held w g) :
    Ending procs me held w (f ++ g) where
  checked k hk hw := by
    rw [List.append_assoc]
    exact hf.checked _ (hg.checked k hk hw) (hg.woken k hw)
  woken k hw := by
    rw [List.append_assoc]
    exact hf.woken _ (hg.woken k hw)
  ordinary i hi := (List.mem_append.mp hi).elim (hf.ordinary i) (hg.ordinary i)

protected theorem Ending.nil : Ending procs me held w ([] : Code P B I Z) :=
  ⟨fun _ hk _ => hk, fun _ hw => hw, fun _ hi => absurd hi List.not_mem_nil⟩

protected theorem Ending.times (n : Nat) (h : Ending procs me held w f) :
    Ending procs me held w (times n f) := by
  induction n with
  | zero => exact .nil
  | succ n ih => exact h.append ih

protected theorem Ending.look (hrank : ∀ h ∈ held, kernelRank h < 1) :
    Ending procs me held w (look q) :=
  have hlook : Routine procs me held (look q) := .look hrank
  ⟨fun k hk _ => hlook.checked k hk, fun _ hw q' hq' hne => ⟨nofun, hw q' hq' hne⟩, hlook.ordinary⟩

/-- What has ended is announced. -/
protected theorem Ending.wake (h : Ending procs me held w f)
    (hrank : ∀ h ∈ held, kernelRank h < 1) : Routine procs me held (f ++ wake procs me w) where
  checked k hk := by
    rw [List.append_assoc]
    refine h.checked _ ((Routine.wake hrank).checked k hk) fun q hq hne => ?_
    exact wakes_wakeup rfl hq hne
  ordinary i hi := (List.mem_append.mp hi).elim (h.ordinary i) (ordinary_wake i)

/-! ## Functions that hold one lock for a moment -/

/-- `acquire(l)` and `release(l)`, with data between them for which no process waits. -/
def brief (l : Spinlock I) : Code P B I Z := locked (.other (.inr l)) []

def allocpid : Code P B I Z := brief .pid

def kalloc : Code P B I Z := brief .kmem

def kfree : Code P B I Z := brief .kmem

def printf : Code P B I Z := brief .pr

def filealloc : Code P B I Z := brief .ftable

def filedup : Code P B I Z := brief .ftable

/-- `fileclose`, up to where it closes a pipe or an inode. -/
def fileclose : Code P B I Z := brief .ftable

def iget : Code P B I Z := brief .itable

def idup : Code P B I Z := brief .itable

/-- `iput`, unless it frees the inode. -/
def iput : Code P B I Z := brief .itable

/-- `bget`, up to `acquiresleep`. -/
def bget : Code P B I Z := brief .bcache

/-- `brelse`, behind `releasesleep`. -/
def brelse : Code P B I Z := brief .bcache

def bpin : Code P B I Z := brief .bcache

def bunpin : Code P B I Z := brief .bcache

def sysUptime : Code P B I Z := brief .ticks

/-- What `holdingsleep` returns is tested by its caller. -/
def testsleep (z : Z) : Code P B I Z := locked (.other (.inl z)) []

protected theorem Routine.brief {l : Spinlock I}
    (hrank : ∀ h ∈ held, kernelRank h < kernelRank (.other (.inr l) : Lock P (Z ⊕ Spinlock I))) :
    Routine procs me held (brief l : Code P B I Z) :=
  Routine.locked hrank .nil

/-! ## Processes -/

/-- `allocproc` and `kfork`: `before` are the processes in front of the free slot `np`; the
page table and the copy of the memory take `pages` pages, and `segs` segments and `files`
open files are shared. -/
def kfork (p : P) (before : List P) (np : P) (pages segs files : Nat) : Code P B I Z :=
  before.flatMap look ++
    -- `allocproc` returns with `np->lock` held, which `kfork` gives back before it takes
    -- `wait_lock`.
    locked (.proc np) (allocpid ++ times pages kalloc ++ times segs idup ++
      times files filedup ++ idup) ++
    locked (.other (.inr .wait)) [act (.family (.adopt np p))] ++ locked (.proc np) [.start np]

/-- `kfork`, where `allocproc` gets only `pages` pages. -/
def kforkFails (before : List P) (np : P) (pages : Nat) : Code P B I Z :=
  before.flatMap look ++ locked (.proc np) (allocpid ++ times pages kalloc ++ kalloc ++ printf ++
    times pages kfree) ++ printf

/-- `kfork`, where `uvmcopy` runs out of memory and gives `copied` of the pages back. -/
def kforkUncopied (before : List P) (np : P) (pages copied : Nat) : Code P B I Z :=
  before.flatMap look ++ locked (.proc np)
    (allocpid ++ times (pages + copied) kalloc ++ kalloc ++ times copied kfree ++ printf ++
     times pages kfree)

/-- `kfork`, where no slot is free. -/
def kforkFull (procs : List P) : Code P B I Z := procs.flatMap look ++ printf ++ printf

/-- What `kexit` does with `wait_lock` held: `kids` are the children that `reparent` finds. The
process counts as exited before it wakes up its parent and becomes a `ZOMBIE` after that, but the
parent needs `wait_lock` to look. -/
def leaving (procs : List P) (p parent initproc : P) (kids : List P) : Code P B I Z :=
  kids.flatMap (fun pp => [act (.family (.reparent pp p initproc))] ++
    wake procs (some p) (.child initproc)) ++
    ([act (.family (.exit p parent))] ++ wake procs (some p) (.child parent))

/-- The end of `kexit`, from where it acquires `wait_lock`. -/
def kexit (procs : List P) (p parent initproc : P) (kids : List P) : Code P B I Z :=
  .acquire (.other (.inr .wait)) :: (leaving procs p parent initproc kids ++ exitEnd p (.inr .wait))

/-- `kwait`, where the child `pp` has exited; `freeproc` gives back `pages` pages and `segs`
inodes. -/
def kwait (p pp : P) (pages segs : Nat) : Code P B I Z :=
  locked (.other (.inr .wait)) ([await (.child p)] ++
    locked (.proc pp) (times pages kfree ++ times segs iput ++ [act (.family (.reap pp))] ++
      [.free pp]))

/-- `kwait`, where `copyout` fails. -/
def kwaitFails (p pp : P) : Code P B I Z :=
  locked (.other (.inr .wait)) ([await (.child p)] ++ locked (.proc pp) [])

/-- `kwait` of a process that is killed. -/
def kwaitKilled (p : P) : Code P B I Z := locked (.other (.inr .wait)) [await (.child p)]

/-- `kwait` of a process without children. -/
def kwaitChildless : Code P B I Z := locked (.other (.inr .wait)) []

/-! ## Devices -/

/-- `consoleread` of `n` characters; `more` when it then waits, and is killed or finds an end
of file that it leaves. -/
def consoleread (n : Nat) (more : Bool) : Code P B I Z :=
  locked (.other (.inr .cons)) (times n ([await .input] ++ [act (.console .take)]) ++ if more then
    [await .input] else [])

/-- What a key does: `procdump` prints `lines` lines, the line is edited, or it ends. -/
structure Key where
  lines : Nat := 0
  edits : List (BitVec 32) := []
  line : Option (BitVec 32) := none

def consoleintr (procs : List P) (me : Option P) (key : Key) : Code P B I Z :=
  locked (.other (.inr .cons)) (times key.lines printf ++
    key.edits.flatMap (fun e => [act (.console (.edit e))]) ++
    key.line.elim [] fun e => [act (.console (.line e))] ++ wake procs me .input)

/-- `uartwrite` of `n` characters. -/
def uartwrite (n : Nat) : Code P B I Z :=
  locked (.other (.inr .tx)) (times n ([await .transmit] ++ [act (.tx true)]))

def uartintr (procs : List P) (me : Option P) (idle : Bool) (keys : List Key) : Code P B I Z :=
  locked (.other (.inr .tx)) (if idle then [act (.tx false)] ++ wake procs me .transmit else []) ++
    keys.flatMap (consoleintr procs me)

def virtioDiskRw (procs : List P) (p : P) (b : B) : Code P B I Z :=
  -- The lock is held throughout, but for the two loops in which it sleeps.
  locked (.other (.inr .vdisk)) ([await .descs] ++ [act (.disk .allocDescs)] ++
    [act (.disk (.submit b))] ++
    [await (.disk b)] ++ times 3 ([act (.disk .freeDesc)] ++ wake procs (some p) .descs))

/-- `virtio_disk_intr`, where the requests for the buffers `bs` are served. -/
def virtioDiskIntr (procs : List P) (me : Option P) (bs : List B) : Code P B I Z :=
  locked (.other (.inr .vdisk)) (bs.flatMap fun b => [act (.disk (.served b))] ++
    wake procs me (.disk b))

/-- `clockintr`, of the first CPU. -/
def clockintr (procs : List P) (me : Option P) : Code P B I Z :=
  locked (.other (.inr .ticks)) ([act .tick] ++ wake procs me (.pause 0 0))

def sysPause (ticks0 n : BitVec 32) :
    Code P B I Z := locked (.other (.inr .ticks)) [await (.pause ticks0 n)]

/-! ## The log and pipes -/

def beginOp : Code P B I Z := locked (.other (.inr .log)) ([await .log] ++ [act (.log .beginOp)])

/-- `log_write`; `new` when the block is not in the log yet. -/
def logWrite (new : Bool) : Code P B I Z :=
  locked (.other (.inr .log)) (if new then bpin ++ [act (.log .logWrite)] else [])

/-- `end_op`, with operations left. -/
def endOp (procs : List P) (p : P) : Code P B I Z :=
  locked (.other (.inr .log)) ([act (.log .endOp)] ++ wake procs (some p) .log)

/-- The first part of `end_op` of the last operation. -/
def endOpLast : Code P B I Z := locked (.other (.inr .log)) [act (.log .lastOp)]

/-- The last part of it, behind `commit`. -/
def endOpCommitted (procs : List P) (p : P) : Code P B I Z :=
  locked (.other (.inr .log)) ([act (.log .committed)] ++ wake procs (some p) .log)

/-- `pipealloc`, behind `filealloc`. -/
def pipealloc (i : I) : Code P B I Z := kalloc ++ [act (.pipe i .alloc)]

/-- `pipeclose`; `last` when both ends are closed. -/
def pipeclose (procs : List P) (p : P) (i : I) (writable last : Bool) : Code P B I Z :=
  locked (.other (.inr (.pipe i)))
    (if writable then [act (.pipe i .closeWrite)] ++ wake procs (some p) (.pipeData i)
    else [act (.pipe i .closeRead)] ++ wake procs (some p) (.pipeRoom i)) ++
  if last then kfree else []

/-- `piperead` of `n` bytes. -/
def piperead (procs : List P) (p : P) (i : I) (n : Nat) : Code P B I Z :=
  locked (.other (.inr (.pipe i)))
    ([await (.pipeData i)] ++ (times n [act (.pipe i .get)] ++ wake procs (some p) (.pipeRoom i)))

/-- `piperead` of a process that is killed. -/
def pipereadKilled (i : I) : Code P B I Z := locked (.other (.inr (.pipe i))) [await (.pipeData i)]

/-- `pipewrite` puts `n` bytes, and looks after each whether it is killed. -/
def pipeput (p : P) (i : I) (n : Nat) : Code P B I Z := times n ([act (.pipe i .put)] ++ killed p)

/-- The rounds of `pipewrite`, which finds the pipe full after each of `parts`. -/
def pipefill (procs : List P) (p : P) (i : I) (parts : List Nat) : Code P B I Z :=
  killed p ++ parts.flatMap fun n => pipeput p i n ++ wake procs (some p) (.pipeData i) ++
    [test (.pipeRoom i)]

/-- `pipewrite`, with `n` more bytes at the end, and another one if `copyin` does not fail there. -/
def pipewrite (procs : List P) (p : P) (i : I) (parts : List Nat) (n : Nat) (whole : Bool) :
    Code P B I Z :=
  locked (.other (.inr (.pipe i)))
    (pipefill procs p i parts ++
      -- The last byte is followed by the end of the loop, which does not call `killed`.
      (pipeput p i n ++ (if whole then [act (.pipe i .put)] else []) ++
       wake procs (some p) (.pipeData i)))

/-- `pipewrite` of no bytes. -/
def pipewriteNone (procs : List P) (p : P) (i : I) : Code P B I Z :=
  locked (.other (.inr (.pipe i))) (wake procs (some p) (.pipeData i))

/-- `pipewrite`, where nobody reads any more, or the process is killed, at the beginning
or after it has slept. -/
def pipewriteFails (procs : List P) (p : P) (i : I) (parts : List Nat) : Code P B I Z :=
  locked (.other (.inr (.pipe i))) (pipefill procs p i parts)

/-- `pipewrite`, where nobody reads from the beginning. -/
def pipewriteClosed (i : I) : Code P B I Z := locked (.other (.inr (.pipe i))) []

/-! ## The program -/

/-- `devintr`, with whether the interrupt is that of the timer. -/
inductive Devintr (procs : List P) (me : Option P) : Bool → Code P B I Z → Prop
  | uart (idle : Bool) (keys : List Key) : Devintr procs me false (uartintr procs me idle keys)
  | disk (bs : List B) : Devintr procs me false (virtioDiskIntr procs me bs)
  | unexpected : Devintr procs me false printf
  | spurious : Devintr procs me false []
  | clock : Devintr procs me true (clockintr procs me)
  | otherClock : Devintr procs me true []

/-- The functions that a process calls without spinlocks. -/
inductive Call (procs : List P) (p : P) : Code P B I Z → Prop
  | devintr {timer : Bool} {f : Code P B I Z} (h : Devintr procs (some p) timer f) : Call procs p f
  | kalloc : Call procs p kalloc
  | kfree : Call procs p kfree
  | printf : Call procs p printf
  | filealloc : Call procs p filealloc
  | filedup : Call procs p filedup
  | fileclose : Call procs p fileclose
  | iget : Call procs p iget
  | idup : Call procs p idup
  | iput : Call procs p iput
  | bget : Call procs p bget
  | brelse : Call procs p brelse
  | bunpin : Call procs p bunpin
  | testsleep (z : Z) : Call procs p (testsleep z)
  | sysUptime : Call procs p sysUptime
  | sysPause (ticks0 n : BitVec 32) : Call procs p (sysPause ticks0 n)
  | killed : Call procs p (killed p)
  | setkilled : Call procs p (setkilled p)
  | kkill (before : List P) (q : P) : Call procs p (kkill before q)
  | kkillFails : Call procs p (procs.flatMap look)
  | yield : Call procs p (yield p)
  | kfork (before : List P) (np : P) (pages segs files : Nat) :
      Call procs p (kfork p before np pages segs files)
  | kforkFails (before : List P) (np : P) (pages : Nat) : Call procs p (kforkFails before np pages)
  | kforkUncopied (before : List P) (np : P) (pages copied : Nat) :
      Call procs p (kforkUncopied before np pages copied)
  | kforkFull : Call procs p (kforkFull procs)
  | kwait (pp : P) (pages segs : Nat) : Call procs p (kwait p pp pages segs)
  | kwaitFails (pp : P) : Call procs p (kwaitFails p pp)
  | kwaitKilled : Call procs p (kwaitKilled p)
  | kwaitChildless : Call procs p kwaitChildless
  | consoleread (n : Nat) (more : Bool) : Call procs p (consoleread n more)
  | uartwrite (n : Nat) : Call procs p (uartwrite n)
  | virtioDiskRw (b : B) : Call procs p (virtioDiskRw procs p b)
  | beginOp : Call procs p beginOp
  | logWrite (new : Bool) : Call procs p (logWrite new)
  | logClear : Call procs p [act (.log .clear)]
  | endOp : Call procs p (endOp procs p)
  | endOpLast : Call procs p endOpLast
  | endOpCommitted : Call procs p (endOpCommitted procs p)
  | pipealloc (i : I) : Call procs p (pipealloc i)
  | pipeclose (i : I) (writable last : Bool) : Call procs p (pipeclose procs p i writable last)
  | piperead (i : I) (n : Nat) : Call procs p (piperead procs p i n)
  | pipereadKilled (i : I) : Call procs p (pipereadKilled i)
  | pipewrite (i : I) (parts : List Nat) (n : Nat) (whole : Bool) :
      Call procs p (pipewrite procs p i parts n whole)
  | pipewriteNone (i : I) : Call procs p (pipewriteNone procs p i)
  | pipewriteClosed (i : I) : Call procs p (pipewriteClosed i)
  | pipewriteFails (i : I) (parts : List Nat) : Call procs p (pipewriteFails procs p i parts)

/-- What a process that has the sleeplocks `own` does up to its return to user space, or its exit:
it takes sleeplocks in the order `before`, and gives back what it has taken. -/
inductive Calls (procs : List P) (before : Z → Z → Prop) (p : P) : List Z → Code P B I Z → Prop
  | userret : Calls procs before p [] [.intrOff, .userret]
  | kexit (parent initproc : P) (kids : List P) :
      Calls procs before p [] (kexit procs p parent initproc kids)
  | call {own : List Z} {f k : Code P B I Z} (h : Call procs p f)
      (rest : Calls procs before p own k) : Calls procs before p own (f ++ k)
  | acquiresleep {own : List Z} {k : Code P B I Z} (z : Z) (order : ∀ o ∈ own, before o z)
      (rest : Calls procs before p (z :: own) k) : Calls procs before p own (acquiresleep z ++ k)
  | releasesleep {own : List Z} {k : Code P B I Z} (z : Z) (mine : z ∈ own)
      (rest : Calls procs before p (own.erase z) k) :
      Calls procs before p own (releasesleep procs p z ++ k)

/-- The code of the kernel: `kerneltrap`, which yields when the timer interrupts a process; and what
a process does from where it enters the kernel, with interrupts enabled if it is a system call. -/
def kernelCode (procs : List P) (before : Z → Z → Prop) :
    Program P (Z ⊕ Spinlock I) (Z ⊕ Cond P B I) (SleepAct Z ⊕ Act P B I) where
  -- While the scheduler runs there is no process to yield.
  handler me code := ∃ timer f, Devintr procs me timer f ∧ code = f ++ if timer then
    me.elim [] yield else []
  entry p code := ∃ k, Calls procs before p [] k ∧ (code = k ∨ code = .intrOn :: k)

/-! ## The discipline -/

theorem rank_nil {n : Nat} : ∀ h ∈ ([] : List (Lock P (Z ⊕ Spinlock I))), kernelRank h < n :=
  fun _ hh => absurd hh List.not_mem_nil

theorem rank_guard (w : Cond P B I) :
    kernelRank (.other (.inr w.guard) : Lock P (Z ⊕ Spinlock I)) = 0 := by
  cases w <;> rfl

/-- One lock that is not among the last is held. -/
theorem rank_singleton {l : Spinlock I} (hl : l.leaf = false) {n : Nat} (hn : 0 < n) :
    ∀ h ∈ ([.other (.inr l)] : List (Lock P (Z ⊕ Spinlock I))), kernelRank h < n := by
  intro h hh
  rw [List.mem_singleton.mp hh, kernelRank, hl]
  exact hn

/-- The functions that take one of the last locks. -/
protected theorem Routine.last {l : Spinlock I} (hl : l.leaf = true)
    (hrank : ∀ h ∈ held, kernelRank h < 2) : Routine procs me held (brief l : Code P B I Z) :=
  .brief fun h hh => by
    rw [show kernelRank (.other (.inr l) : Lock P (Z ⊕ Spinlock I)) = 2 by rw [kernelRank, hl]; rfl]
    exact hrank h hh

protected theorem Routine.kill (hq : .proc q ∈ held) :
    Routine procs me held ([.kill q] : Code P B I Z) where
  checked _ hk := ⟨rfl, hq, hk⟩
  ordinary i hi := by
    rw [List.mem_singleton.mp hi]
    trivial

protected theorem Routine.start (hq : .proc q ∈ held) :
    Routine procs me held ([.start q] : Code P B I Z) where
  checked _ hk := ⟨rfl, hq, hk⟩
  ordinary i hi := by
    rw [List.mem_singleton.mp hi]
    trivial

protected theorem Routine.free (hq : .proc q ∈ held) :
    Routine procs me held ([.free q] : Code P B I Z) where
  checked _ hk := ⟨rfl, hq, hk⟩
  ordinary i hi := by
    rw [List.mem_singleton.mp hi]
    trivial

protected theorem Routine.yield : Routine procs (some p) [] (yield p : Code P B I Z) where
  checked _ hk := checked_yield hk
  ordinary i hi := by
    simp only [Sched.yield, List.mem_cons, List.not_mem_nil, or_false] at hi
    rcases hi with rfl | rfl | rfl | rfl <;> trivial

/-- An action that ends a wait, and its `wakeup`. -/
protected theorem Routine.announce (ha : a.wakes = some w) (hguard : .other (.inr w.guard) ∈ held)
    (hrank : ∀ h ∈ held, kernelRank h < 1) : Routine procs me held ([act a] ++ wake procs me w) :=
  (Ending.act ha hguard).wake hrank

/-- One lock that is not among the last is taken where none is held. -/
protected theorem Routine.outer {l : Lock P (Z ⊕ Spinlock I)} (h : Routine procs me [l] f) :
    Routine procs me [] (locked l f) :=
  .locked rank_nil h

/-- The lock of a process is held, and perhaps `wait_lock`. -/
theorem rank_proc (hrank : ∀ h ∈ held, kernelRank h < 1) :
    ∀ h ∈ (.proc q :: held : List (Lock P (Z ⊕ Spinlock I))), kernelRank h < 2 := by
  intro h hh
  rcases List.mem_cons.mp hh with rfl | hh
  · exact Nat.one_lt_two
  · exact Nat.lt_succ_of_lt (hrank h hh)

protected theorem Routine.ite {c : Prop} [Decidable c] (hf : Routine procs me held f)
    (hg : Routine procs me held g) : Routine procs me held (if c then f else g) := by
  split
  · exact hf
  · exact hg

/-- What a loop does in each round. -/
theorem routine_rounds (procs : List P) (p : P) (w : Cond P B I) (d : Vars P B I) :
    Routine procs (some p) [.other (.inr w.guard)] (rounds procs p w d : Code P B I Z) := by
  have hrank : ∀ h ∈ ([.other (.inr w.guard)] : List (Lock P (Z ⊕ Spinlock I))),
    kernelRank h < 1 := by
    intro h hh
    rw [List.mem_singleton.mp hh, rank_guard]
    exact Nat.one_pos
  have hkilled : Routine procs (some p) [.other (.inr w.guard)] (killed p : Code P B I Z) :=
    .look hrank
  -- One case for each kind of round: children, descriptors, room in a pipe, all others.
  unfold rounds
  split
  · exact (Routine.flatMap fun q _ => .look hrank).append (hkilled.ite .nil)
  · exact (Routine.flatten fun f hf => by
      rw [List.eq_of_mem_replicate hf]
      exact .wake hrank).ite .nil
  · exact hkilled.ite .nil
  · exact hkilled.ite .nil

theorem kernel_checked (procs : List P) :
    (kernel Z procs : Kernel P (Z ⊕ Spinlock I) (Z ⊕ Cond P B I) (SleepAct Z ⊕ Act P B I) _).Checked
    kernelRank where
  order w q := by
    -- A condition of a sleeplock has its own guard, and nothing is done in its rounds.
    cases w with
    | inl z => exact Nat.one_pos
    | inr w =>
      have hzero := rank_guard (Z := Z) w
      show kernelRank (.other (.inr w.guard) : Lock P (Z ⊕ Spinlock I)) < 1
      rw [hzero]
      exact Nat.one_pos
  round p w d k hk := by
    cases w with
    | inl z => exact hk
    | inr w => exact (routine_rounds procs p w d.2).checked k hk

protected theorem Routine.kfork (before : List P) (np : P) (pages segs files : Nat) :
    Routine procs me [] (kfork p before np pages segs files : Code P B I Z) := by
  have hlast : ∀ {l : Spinlock I}, l.leaf = true →
      Routine procs me ([.proc np] : List (Lock P (Z ⊕ Spinlock I))) (brief l : Code P B I Z) :=
      fun hl =>
    .last hl (rank_proc rank_nil)
  refine (((Routine.flatMap fun q _ => .look rank_nil).append (.outer ?_)).append
    (.outer (.act rfl))).append (.outer (.start List.mem_cons_self))
  exact ((((hlast rfl).append (.times _ (hlast rfl))).append (.times _ (hlast rfl))).append
    (.times _ (hlast rfl))).append (hlast rfl)

protected theorem Routine.kforkFails (before : List P) (np : P) (pages : Nat) :
    Routine procs me [] (kforkFails before np pages : Code P B I Z) := by
  have hlast : ∀ {l : Spinlock I}, l.leaf = true →
      Routine procs me ([.proc np] : List (Lock P (Z ⊕ Spinlock I))) (brief l : Code P B I Z) :=
      fun hl =>
    .last hl (rank_proc rank_nil)
  refine ((Routine.flatMap fun q _ => .look rank_nil).append (.outer ?_)).append
    (.last rfl rank_nil)
  exact ((((hlast rfl).append (.times _ (hlast rfl))).append (hlast rfl)).append (hlast rfl)).append
    (.times _ (hlast rfl))

protected theorem Routine.kforkUncopied (before : List P) (np : P) (pages copied : Nat) :
    Routine procs me [] (kforkUncopied before np pages copied : Code P B I Z) := by
  have hlast : ∀ {l : Spinlock I}, l.leaf = true →
      Routine procs me ([.proc np] : List (Lock P (Z ⊕ Spinlock I))) (brief l : Code P B I Z) :=
      fun hl =>
    .last hl (rank_proc rank_nil)
  refine (Routine.flatMap fun q _ => .look rank_nil).append (.outer ?_)
  exact (((((hlast rfl).append (.times _ (hlast rfl))).append (hlast rfl)).append
    (.times _ (hlast rfl))).append (hlast rfl)).append (.times _ (hlast rfl))

protected theorem Routine.kwait (pp : P) (pages segs : Nat) :
    Routine procs (some p) [] (kwait p pp pages segs : Code P B I Z) := by
  have hwait := rank_singleton (P := P) (Z := Z) (I := I) (l := .wait) rfl Nat.one_pos
  refine .outer (.append (.await rfl) (.locked hwait ?_))
  exact (((Routine.times _ (.last rfl (rank_proc hwait))).append
    (.times _ (.last rfl (rank_proc hwait)))).append (.act rfl)).append (.free List.mem_cons_self)

protected theorem Routine.kwaitFails (pp : P) :
    Routine procs (some p) [] (kwaitFails p pp : Code P B I Z) :=
  .outer (.append (.await rfl) (.locked (rank_singleton rfl Nat.one_pos) .nil))

protected theorem Routine.consoleread (n : Nat) (more : Bool) :
    Routine procs (some p) [] (consoleread n more : Code P B I Z) :=
  .outer (.append (.times n (.append (.await rfl) (.act rfl))) (.ite (.await rfl) .nil))

protected theorem Routine.consoleintr (key : Key) :
    Routine procs me [] (consoleintr procs me key : Code P B I Z) := by
  have hcons : ∀ n, 0 < n → ∀ h ∈ ([.other (.inr .cons)] : List (Lock P (Z ⊕ Spinlock I))),
    kernelRank h < n :=
    fun n hn => rank_singleton rfl hn
  refine .outer (((Routine.times _ (.last rfl (hcons 2 Nat.two_pos))).append
    (.flatMap fun e _ => .act rfl)).append ?_)
  cases key.line with
  | none => exact .nil
  | some e =>
    exact .announce rfl List.mem_cons_self (hcons 1 Nat.one_pos)

protected theorem Routine.uartwrite (n : Nat) :
    Routine procs (some p) [] (uartwrite n : Code P B I Z) :=
  .outer (.times n (.append (.await rfl) (.act rfl)))

protected theorem Routine.virtioDiskRw (b : B) :
    Routine procs (some p) [] (virtioDiskRw procs p b : Code P B I Z) := by
  refine .outer (((((Routine.await (w := .descs) rfl).append (.act rfl)).append (.act rfl)).append
    (Routine.await (w := .disk b) rfl)).append (.times 3 ?_))
  exact .announce rfl List.mem_cons_self (rank_singleton rfl Nat.one_pos)

protected theorem Routine.beginOp : Routine procs (some p) [] (beginOp : Code P B I Z) :=
  .outer (.append (.await rfl) (.act rfl))

protected theorem Routine.logWrite (new : Bool) :
    Routine procs me [] (logWrite new : Code P B I Z) :=
  .outer (.ite (.append (.last rfl (rank_singleton rfl Nat.two_pos)) (.act rfl)) .nil)

protected theorem Routine.pipeclose (i : I) (writable last : Bool) :
    Routine procs (some p) [] (pipeclose procs p i writable last : Code P B I Z) := by
  have hrank := rank_singleton (P := P) (Z := Z) (l := .pipe i) rfl Nat.one_pos
  refine (Routine.outer (.ite ?_ ?_)).append (.ite (.last rfl rank_nil) .nil)
  · exact .announce (w := .pipeData i) rfl List.mem_cons_self hrank
  · exact .announce (w := .pipeRoom i) rfl List.mem_cons_self hrank

protected theorem Routine.piperead (i : I) (n : Nat) :
    Routine procs (some p) [] (piperead procs p i n : Code P B I Z) := by
  refine .outer (.append (.await rfl) (Ending.wake (.times n (.act rfl List.mem_cons_self)) ?_))
  exact rank_singleton rfl Nat.one_pos

/-- `killed` between the bytes gives back `p->lock` only. -/
theorem ending_pipeput (i : I) (n : Nat) :
    Ending procs (some p) [.other (.inr (.pipe i))] (.pipeData i) (pipeput p i n : Code P B I Z) :=
  .times n (.append (.act rfl List.mem_cons_self) (.look (rank_singleton rfl Nat.one_pos)))

protected theorem Routine.pipefill (i : I) (parts : List Nat) :
    Routine procs (some p) [.other (.inr (.pipe i))] (pipefill procs p i parts : Code P B I Z) := by
  have hrank := rank_singleton (P := P) (Z := Z) (l := .pipe i) rfl Nat.one_pos
  refine (Routine.look hrank).append (.flatMap fun n _ => .append ?_ (.test rfl))
  exact (ending_pipeput i n).wake hrank

protected theorem Routine.pipewrite (i : I) (parts : List Nat) (n : Nat) (whole : Bool) :
    Routine procs (some p) [] (pipewrite procs p i parts n whole : Code P B I Z) := by
  refine .outer (.append (.pipefill i parts) (Ending.wake ((ending_pipeput i n).append ?_) ?_))
  · cases whole with
    | true => exact .act rfl List.mem_cons_self
    | false => exact .nil
  · exact rank_singleton rfl Nat.one_pos

theorem Devintr.routine {timer : Bool} (h : Devintr procs me timer f) : Routine procs me [] f := by
  have hone : ∀ {l : Spinlock I}, l.leaf = false →
      ∀ h ∈ ([.other (.inr l)] : List (Lock P (Z ⊕ Spinlock I))), kernelRank h < 1 := fun hl =>
    rank_singleton hl Nat.one_pos
  -- A handler holds nothing when it begins.
  cases h with
  | uart idle keys =>
    refine (Routine.outer (.ite ?_ .nil)).append (.flatMap fun key _ => .consoleintr key)
    exact .announce rfl List.mem_cons_self (hone rfl)
  | disk bs =>
    refine .outer (.flatMap fun b _ => ?_)
    exact .announce rfl List.mem_cons_self (hone rfl)
  | unexpected => exact .last rfl rank_nil
  | spurious => exact .nil
  | clock => exact .outer (.announce rfl List.mem_cons_self (hone rfl))
  | otherClock => exact .nil

/-- `kerneltrap`. -/
theorem Devintr.handler {timer : Bool} (h : Devintr procs me timer f) :
    Routine procs me [] (f ++ if timer then me.elim [] yield else []) := by
  refine h.routine.append (.ite ?_ .nil)
  cases me with
  | none => exact .nil
  | some p => exact .yield

/-- **The functions that a process calls are routines.** -/
theorem Call.routine (h : Call procs p f) : Routine procs (some p) [] f := by
  cases h with
  | devintr h => exact h.routine
  | kalloc => exact .last rfl rank_nil
  | kfree => exact .last rfl rank_nil
  | printf => exact .last rfl rank_nil
  | filealloc => exact .last rfl rank_nil
  | filedup => exact .last rfl rank_nil
  | fileclose => exact .last rfl rank_nil
  | iget => exact .last rfl rank_nil
  | idup => exact .last rfl rank_nil
  | iput => exact .last rfl rank_nil
  | bget => exact .last rfl rank_nil
  | brelse => exact .last rfl rank_nil
  | bunpin => exact .last rfl rank_nil
  | testsleep z => exact .outer .nil
  | sysUptime => exact .outer .nil
  | sysPause ticks0 n => exact .outer (.await rfl)
  | killed => exact .look rank_nil
  | setkilled => exact Routine.outer (f := [.kill p]) (.kill List.mem_cons_self)
  | kkill before q =>
    exact (Routine.flatMap fun q _ => .look rank_nil).append
      (Routine.outer (f := [.kill q]) (.kill List.mem_cons_self))
  | kkillFails => exact .flatMap fun q _ => .look rank_nil
  | yield => exact .yield
  | kfork before np pages segs files => exact .kfork before np pages segs files
  | kforkFails before np pages => exact .kforkFails before np pages
  | kforkUncopied before np pages copied => exact .kforkUncopied before np pages copied
  | kforkFull =>
    exact ((Routine.flatMap fun q _ => .look rank_nil).append (.last rfl rank_nil)).append
      (.last rfl rank_nil)
  | kwait pp pages segs => exact .kwait pp pages segs
  | kwaitFails pp => exact .kwaitFails pp
  | kwaitKilled => exact .outer (.await rfl)
  | kwaitChildless => exact .outer .nil
  | consoleread n more => exact .consoleread n more
  | uartwrite n => exact .uartwrite n
  | virtioDiskRw b => exact .virtioDiskRw b
  | beginOp => exact .beginOp
  | logWrite new => exact .logWrite new
  | logClear => exact .act rfl
  | endOp =>
    exact .outer (.announce rfl List.mem_cons_self (rank_singleton rfl Nat.one_pos))
  | endOpLast => exact .outer (.act rfl)
  | endOpCommitted =>
    exact .outer (.announce rfl List.mem_cons_self (rank_singleton rfl Nat.one_pos))
  | pipealloc i => exact (Routine.last rfl rank_nil).append (.act rfl)
  | pipeclose i writable last => exact .pipeclose i writable last
  | piperead i n => exact .piperead i n
  | pipereadKilled i => exact .outer (.await rfl)
  | pipewrite i parts n whole => exact .pipewrite i parts n whole
  | pipewriteNone i => exact .outer (.wake (rank_singleton rfl Nat.one_pos))
  | pipewriteClosed i => exact .outer .nil
  | pipewriteFails i parts => exact .outer (.pipefill i parts)

protected theorem Routine.leaving (parent initproc : P) (kids : List P) :
    Routine procs (some p) [.other (.inr .wait)]
    (leaving procs p parent initproc kids : Code P B I Z) := by
  have hrank := rank_singleton (P := P) (Z := Z) (I := I) (l := .wait) rfl Nat.one_pos
  refine .append (.flatMap fun pp _ => ?_) ?_
  · exact .announce rfl List.mem_cons_self hrank
  · exact .announce rfl List.mem_cons_self hrank

/-- `kexit` gives `wait_lock` back and leaves with its own lock. -/
theorem checked_kexit (parent initproc : P) (kids : List P) :
    Checked (kernel Z procs) kernelRank (some p) .running []
    (kexit procs p parent initproc kids : Code P B I Z) := by
  refine ⟨rfl, rank_nil, (Routine.leaving parent initproc kids).checked _ ⟨rfl, ?_, rfl,
    ⟨p, rfl, List.mem_cons_self⟩, ?_⟩⟩
  · exact rank_singleton rfl Nat.one_pos
  -- `wait_lock` is released while `p->lock` is held: the last thing before `sched`.
  · refine ⟨List.mem_cons_of_mem _ List.mem_cons_self, Or.inr fun _ _ => nofun, ?_⟩
    rw [List.erase_cons_tail (by simp), List.erase_cons_head]
    exact ⟨ProcState.noConfusion, ⟨p, rfl, rfl⟩, fun hc => absurd rfl hc⟩

/-- **What a process does in the kernel is checked.** -/
theorem Calls.checked {before : Z → Z → Prop} {own : List Z} {k : Code P B I Z}
    (h : Calls procs before p own k) :
    Checked (kernel Z procs) kernelRank (some p) .running [] k := by
  -- From the end of the code backwards, with no spinlock held between two calls.
  induction h with
  | userret => exact ⟨rfl, rfl, rfl, rfl, rfl, rfl, rfl⟩
  | kexit parent initproc kids => exact checked_kexit parent initproc kids
  | call h rest ih => exact h.routine.checked _ ih
  | acquiresleep z order rest ih => exact checked_acquiresleep ih
  | releasesleep z mine rest ih => exact checked_releasesleep (fun _ => Nat.one_pos) ih

theorem kernelCode_checked (before : Z → Z → Prop) :
    (kernelCode procs before : Program P (Z ⊕ Spinlock I) (Z ⊕ Cond P B I)
      (SleepAct Z ⊕ Act P B I)).Checked (kernel Z procs) kernelRank where
  kernel := kernel_checked procs
  handler me code h := by
    obtain ⟨timer, f, hf, rfl⟩ := h
    have hcode := hf.handler.checked [] ⟨rfl, rfl⟩
    rwa [List.append_nil] at hcode
  entry p code h := by
    obtain ⟨k, hk, rfl | rfl⟩ := h
    · exact hk.checked
    · exact ⟨rfl, rfl, hk.checked⟩

/-! ## Sleeping, interrupts and sleeplocks -/

theorem Instr.Ordinary.quiet
    {i : Instr P (Z ⊕ Spinlock I) (Z ⊕ Cond P B I) (SleepAct Z ⊕ Act P B I)} (h : i.Ordinary) :
    i.Quiet := by
  cases i
  case sret | intrOn | userret | dispatch => exact h.elim
  all_goals exact trivial

theorem Instr.Ordinary.plain
    {i : Instr P (Z ⊕ Spinlock I) (Z ⊕ Cond P B I) (SleepAct Z ⊕ Act P B I)} (h : i.Ordinary) :
    i.Plain := by
  cases i
  case await w => cases w <;> exact h
  case test w => cases w <;> exact h
  case act a => cases a <;> exact h
  all_goals first | exact trivial | exact h.elim

/-- No part of `sleep`, and no return from an interrupt. -/
def Instr.Tame (i : Instr P (Z ⊕ Spinlock I) (Z ⊕ Cond P B I) (SleepAct Z ⊕ Act P B I)) : Prop :=
  (∀ w, i ≠ .setSleeping w) ∧ i ≠ .sret

theorem Instr.Ordinary.tame {i : Instr P (Z ⊕ Spinlock I) (Z ⊕ Cond P B I) (SleepAct Z ⊕ Act P B I)}
    (h : i.Ordinary) :
    i.Tame := by
  refine ⟨fun w hc => ?_, fun hc => ?_⟩
  · rw [hc] at h
    exact h
  · rw [hc] at h
    exact h

theorem Calls.tame {before : Z → Z → Prop} {own : List Z} {k : Code P B I Z}
    (h : Calls procs before p own k) : ∀ i ∈ k, i.Tame := by
  induction h with
  | userret => simp [Instr.Tame]
  | kexit parent initproc kids =>
    intro i hi
    rcases List.mem_cons.mp hi with rfl | hi
    · simp [Instr.Tame]
    rcases List.mem_append.mp hi with hi | hi
    · exact ((Routine.leaving parent initproc kids).ordinary i hi).tame
    · simp only [exitEnd, List.mem_cons, List.not_mem_nil, or_false] at hi
      rcases hi with rfl | rfl | rfl | rfl | rfl <;> simp [Instr.Tame]
  | call h rest ih =>
    intro i hi
    exact (List.mem_append.mp hi).elim (fun hi => (h.routine.ordinary i hi).tame) (ih i)
  | acquiresleep z order rest ih =>
    intro i hi
    refine (List.mem_append.mp hi).elim (fun hi => ?_) (ih i)
    simp only [Sched.acquiresleep, List.mem_cons, List.not_mem_nil, or_false] at hi
    rcases hi with rfl | rfl | rfl | rfl <;> simp [Instr.Tame]
  | releasesleep z mine rest ih =>
    intro i hi
    refine (List.mem_append.mp hi).elim (fun hi => ?_) (ih i)
    rcases List.mem_cons.mp hi with rfl | hi
    · simp [Instr.Tame]
    rcases List.mem_cons.mp hi with rfl | hi
    · simp [Instr.Tame]
    rcases List.mem_append.mp hi with hi | hi
    · obtain ⟨q, -, hq⟩ := List.mem_flatMap.mp hi
      simp only [List.mem_cons, List.not_mem_nil, or_false] at hq
      rcases hq with rfl | rfl | rfl <;> simp [Instr.Tame]
    · rw [List.mem_singleton.mp hi]
      simp [Instr.Tame]

theorem kernelCode_handler {before : Z → Z → Prop} {code : Code P B I Z}
    (h : (kernelCode procs before).handler me code) : ∀ i ∈ code, i.Ordinary := by
  obtain ⟨timer, f, hf, rfl⟩ := h
  exact hf.handler.ordinary

theorem kernelCode_entry {before : Z → Z → Prop} {code : Code P B I Z}
    (h : (kernelCode procs before).entry p code) : ∀ i ∈ code, i.Tame := by
  obtain ⟨k, hk, rfl | rfl⟩ := h
  · exact hk.tame
  · intro i hi
    rcases List.mem_cons.mp hi with rfl | hi
    · simp [Instr.Tame]
    · exact hk.tame i hi

/-- What is done in the rounds of the loops, also of that of `acquiresleep`. -/
theorem ordinary_round (p : P) (w : Z ⊕ Cond P B I) (d : (Z → Sleeplock P) × Vars P B I) :
    ∀ i ∈ (kernel Z procs).round p w d, i.Ordinary := by
  cases w with
  | inl z => exact fun _ hi => absurd hi List.not_mem_nil
  | inr w => exact (routine_rounds procs p w d.2).ordinary

theorem kernelCode_masked (before : Z → Z → Prop) :
    (kernelCode procs before : Program P (Z ⊕ Spinlock I) (Z ⊕ Cond P B I)
      (SleepAct Z ⊕ Act P B I)).Masked (kernel Z procs) where
  round p w d i hi := (ordinary_round p w d i hi).quiet
  handler _ _ h i hi := (kernelCode_handler h i hi).quiet
  entry _ _ h hi := (kernelCode_entry h _ hi).2 rfl

theorem kernelCode_calm (before : Z → Z → Prop) :
    (kernelCode procs before : Program P (Z ⊕ Spinlock I) (Z ⊕ Cond P B I)
      (SleepAct Z ⊕ Act P B I)).Calm (kernel Z procs) where
  round p w d v hi := (ordinary_round p w d _ hi).tame.1 v rfl
  handler _ _ h v hi := (kernelCode_handler h _ hi).tame.1 v rfl
  entry _ _ h v hi := (kernelCode_entry h _ hi).1 v rfl

/-- **What a process does in the kernel gives back the sleeplocks that it takes.** -/
theorem Calls.sections {before : Z → Z → Prop} {own : List Z} {k : Code P B I Z}
    (h : Calls procs before p own k) :
    Sections before own none k := by
  induction h with
  | userret => exact .plain trivial .userret
  | kexit parent initproc kids =>
    have hend : Sections before [] none (exitEnd p (.inr .wait) : Code P B I Z) :=
      .plain trivial (.exit (.plain trivial (.plain trivial (.plain trivial .done))))
    exact .plain trivial (.append (fun i hi => ((Routine.leaving parent initproc kids).ordinary i
      hi).plain) hend)
  | call h rest ih => exact .append (fun i hi => (h.routine.ordinary i hi).plain) ih
  | acquiresleep z order rest ih => exact .acquiresleep order ih
  | releasesleep z mine rest ih => exact .releasesleep mine ih

theorem kernelCode_sections {before : Z → Z → Prop} (hirrefl : ∀ z, ¬ before z z) :
    (kernelCode procs before : Program P (Z ⊕ Spinlock I) (Z ⊕ Cond P B I)
      (SleepAct Z ⊕ Act P B I)).Sections (rounds procs) before where
  irrefl := hirrefl
  round p v d i hi := ((routine_rounds procs p v d).ordinary i hi).plain
  handler _ _ h i hi := (kernelCode_handler h i hi).plain
  entry p code h := by
    obtain ⟨k, hk, rfl | rfl⟩ := h
    · exact hk.sections
    · exact .plain trivial hk.sections

/-- **In every run of the kernel** the locks and the scheduler are sound, no interrupt is taken on
top of another one, no wakeup is lost, and `holdingsleep` is true for the process that has still to
give the sleeplock back. -/
theorem kernelCode_sound {C : Type} [DecidableEq C] [Finite C] {before : Z → Z → Prop}
    (hirrefl : ∀ z, ¬ before z z)
    {s₀ s : State P (Z ⊕ Spinlock I) (Z ⊕ Cond P B I) (SleepAct Z ⊕ Act P B
      I) C ((Z → Sleeplock P) × Vars P B I)}
    {es : List (Event P (Z ⊕ Spinlock I) (Z ⊕ Cond P B I) (SleepAct Z ⊕ Act P B I) C)}
    (hboot : Boot s₀) (hfree : ∀ z, (s₀.data.1 z).locked = false)
    (hrun : Run (Step (kernel Z procs) (kernelCode procs before)) s₀ es s) :
    Sound (kernel Z procs) s ∧ (∀ c, (s.cpu c).sie = true → .sret ∉ s.code c) ∧
    (∀ p ∈ procs, ∀ w, (s.proc p).state = .sleeping → (s.proc p).chan = some w →
      Due (kernel Z procs) s p w) ∧
    ∀ p z, holdingsleep s.data.1 p z = owes z (s.proc p).code := by
  have hprog : (kernelCode procs before : Program P (Z ⊕ Spinlock I) (Z ⊕ Cond P B I)
    (SleepAct Z ⊕ Act P B I)).Checked
      (kernel Z procs) kernelRank := kernelCode_checked before
  have hflat := flat_of_run hprog (kernelCode_masked before) hboot hrun
  obtain ⟨⟨hwaits, -⟩, howned⟩ :=
    owned_of_run hprog (kernelCode_calm before) (kernelCode_sections hirrefl) hboot hfree hrun
  refine ⟨(inv_of_run hprog hboot hrun).sound hprog.kernel, fun c hsie hc => ?_, hwaits.asleep,
    howned.holdingsleep hirrefl⟩
  rw [((hflat.cpu c).masked hc).1] at hsie
  cases hsie

end

end Xv6.Sched
