import OsnMp2.Lib.Runs
import Mathlib.Logic.Function.Basic
import Mathlib.Algebra.Group.Nat.Defs

/-!
# Spinlocks, `sleep` and the scheduler

Any number of CPUs run the kernel threads of any number of processes and their own schedulers.
What a thread still has to do is a list of instructions, one for each action that other CPUs,
or an interrupt, can see. Between two instructions of one CPU the others run, and an interrupt
puts its handler in front.

Which data the locks protect, what the threads do to them, and the conditions that they
wait for, are parameters: `acquire`, `release`, `sleep`, `wakeup`, `sched` and
`scheduler` work with all of them.

## Main definitions

* `Instr`: the instructions of a kernel thread
* `State`: the locks, the process table and the CPUs
* `exec`: one instruction of a CPU
* `Step`: an instruction, an interrupt, or a process that enters the kernel
-/

set_option linter.unusedSectionVars false

namespace Xv6.Sched

/-- `enum procstate`; `USED` and `UNUSED` slots do not run. -/
inductive ProcState
  | unused
  | sleeping
  | runnable
  | running
  | zombie
deriving DecidableEq

/-- The spinlocks: `p->lock` of each process, and the others. -/
inductive Lock (P L : Type)
  | proc (p : P)
  | other (l : L)
deriving DecidableEq

/-- What a kernel thread does next. The instructions are over the processes `P`, the other spinlocks
`L`, the channels `W` and the actions `A` on the data. -/
inductive Instr (P L W A : Type)
  /-- `acquire`: `push_off` and the test of `holding` -/
  | acquire (l : Lock P L)
  /-- the loop of `acquire` -/
  | spin (l : Lock P L)
  | release (l : Lock P L)
  | act (a : A)
  /-- `while(cond) sleep(chan, lk)`, at the beginning of a round -/
  | await (w : W)
  /-- the test of the loop; that of a killable condition leaves it when `killed` returns true -/
  | test (w : W)
  /-- `p->chan = chan; p->state = SLEEPING` -/
  | setSleeping (w : W)
  /-- `p->state = RUNNABLE`, in `yield` -/
  | setRunnable
  /-- `p->state = ZOMBIE`, in `kexit` -/
  | setZombie
  /-- `sched`, up to its `swtch` -/
  | sched
  /-- the rest of `sched`, `mycpu()->intena = intena` -/
  | restoreIntena
  /-- `p->chan = 0` -/
  | clearChan
  /-- a process in the loop of `wakeup`, its lock held -/
  | wake (q : P) (w : W)
  /-- the process that `kkill` has found, its lock held -/
  | kill (q : P)
  /-- `np->state = RUNNABLE`, in `kfork`, of a slot that was `UNUSED`; its thread
  begins in `forkret` -/
  | start (q : P)
  /-- `freeproc`, in `kwait`, of a process that is a `ZOMBIE` -/
  | free (q : P)
  /-- a process in the loop of `scheduler`, its lock held, up to the `swtch` -/
  | dispatch (p : P)
  /-- `c->proc = 0`, behind the `swtch` of `scheduler` -/
  | clearProc
  | intrOn
  | intrOff
  /-- the `sret` of `kernelvec`, with the `sstatus` that `kerneltrap` has restored -/
  | sret
  /-- the `sret` of `userret`, with the `sstatus` of `prepare_return` -/
  | userret
  /-- `panic("zombie exit")` -/
  | zombieExit
deriving DecidableEq

/-- `struct proc`, with what its kernel thread has to do and `intena`, the variable of `sched`. -/
structure Proc (P L W A : Type) where
  state : ProcState := .unused
  chan : Option W := none
  killed : Bool := false
  intena : Bool := false
  code : List (Instr P L W A) := []

/-- `struct cpu`, with `sie`, whether interrupts are enabled, and `cur`, the process whose thread
runs on it; when there is none the scheduler runs. -/
structure Cpu (P L W A : Type) where
  proc : Option P := none
  cur : Option P := none
  noff : Nat := 0
  intena : Bool := false
  sie : Bool := false
  code : List (Instr P L W A) := []

/-- The CPU that holds each spinlock, the process table, the CPUs, and the data. -/
structure State (P L W A C σ : Type) where
  lock : Lock P L → Option C
  proc : P → Proc P L W A
  cpu : C → Cpu P L W A
  data : σ

/-- What the locks are for: the actions on the data, the conditions that processes wait for, and the
lock that they give to `sleep`. `chan` takes the conditions that are waited for on one channel to
one of them, the loop of a `killable` condition ends when the process is killed, and `round` is what
a process does in each round of a loop before the test. `procs` is the process table, in order. -/
structure Kernel (P L W A σ : Type) where
  procs : List P
  perform : A → Option P → σ → σ
  cond : W → σ → Bool
  guard : W → L
  chan : W → W := id
  killable : W → Bool := fun _ => false
  round : P → W → σ → List (Instr P L W A) := fun _ _ _ => []

/-- The loop of a condition goes on. -/
def Kernel.waits {P L W A σ : Type} (K : Kernel P L W A σ) (w : W) (d : σ) (killed : Bool) : Bool :=
  K.cond w d && !(K.killable w && killed)

/-- The panics. -/
inductive Panic
  | acquire
  | release
  | popOffInterruptible
  | popOff
  | schedLock
  | schedLocks
  | schedRunning
  | schedInterruptible
  | zombieExit
deriving DecidableEq

section

variable {P L W A C σ : Type} [DecidableEq P] [DecidableEq L] [DecidableEq W] [DecidableEq C]

/-! ## The functions -/

/-- `sleep(chan, lk)`. -/
def sleep (me : P) (w : W) (lk : L) : List (Instr P L W A) :=
  -- `p->lock` is taken before the lock of the condition is released, so no wakeup is missed.
  [.acquire (.proc me), .release (.other lk), .setSleeping w, .sched, .clearChan,
    .release (.proc me), .acquire (.other lk)]

/-- `wakeup(chan)`; `me` is `myproc()`. -/
def wakeup (procs : List P) (me : Option P) (w : W) : List (Instr P L W A) :=
  (procs.filter fun q => some q ≠ me).flatMap fun q =>
    [.acquire (.proc q), .wake q w, .release (.proc q)]

/-- `yield()`. -/
def yield (me : P) : List (Instr P L W A) :=
  [.acquire (.proc me), .setRunnable, .sched, .release (.proc me)]

/-- A process in the table is looked at. -/
def look (q : P) : List (Instr P L W A) := [.acquire (.proc q), .release (.proc q)]

/-- `kkill(pid)`, where `before` are the processes in front of `q`, which has the `pid`. -/
def kkill (before : List P) (q : P) : List (Instr P L W A) :=
  before.flatMap look ++ [.acquire (.proc q), .kill q, .release (.proc q)]

/-- `setkilled(p)`. -/
def setkilled (p : P) : List (Instr P L W A) := [.acquire (.proc p), .kill p, .release (.proc p)]

/-- `killed(p)`; what it returns is tested in the loop that calls it. -/
def killed (p : P) : List (Instr P L W A) := look p

/-- The end of `kexit`, where it holds `wait_lock`. -/
def exitEnd (me : P) (waitLock : L) : List (Instr P L W A) :=
  -- The thread that comes back from `sched` would panic.
  [.acquire (.proc me), .setZombie, .release (.other waitLock), .sched, .zombieExit]

/-- `forkret`, where a new process begins. -/
def forkret (me : P) : List (Instr P L W A) := [.release (.proc me), .intrOff, .userret]

/-- A round of the loop of `scheduler`. -/
def scheduler (procs : List P) : List (Instr P L W A) :=
  [.intrOn, .intrOff] ++ procs.flatMap fun p =>
    [.acquire (.proc p), .dispatch p, .release (.proc p)]

/-! ## The state -/

namespace State

variable (s : State P L W A C σ)

/-- What the CPU has to do: the code of its process, or of its scheduler. -/
def code (c : C) : List (Instr P L W A) :=
  match (s.cpu c).cur with
  | some p => (s.proc p).code
  | none => (s.cpu c).code

def setProc (p : P) (pr : Proc P L W A) : State P L W A C σ :=
  { s with proc := Function.update s.proc p pr }

def setCpu (c : C) (cpu : Cpu P L W A) : State P L W A C σ :=
  { s with cpu := Function.update s.cpu c cpu }

def setLock (l : Lock P L) (holder : Option C) : State P L W A C σ :=
  { s with lock := Function.update s.lock l holder }

/-- The CPU goes on with other code. -/
def setCode (c : C) (code : List (Instr P L W A)) : State P L W A C σ :=
  match (s.cpu c).cur with
  | some p => s.setProc p { s.proc p with code := code }
  | none => s.setCpu c { s.cpu c with code := code }

/-- `push_off()`. -/
def pushOff (c : C) : State P L W A C σ :=
  let cpu := s.cpu c
  s.setCpu c { cpu with
    -- Only the outermost one remembers whether interrupts were enabled.
    intena := if cpu.noff = 0 then cpu.sie else cpu.intena
    noff := cpu.noff + 1
    sie := false }

/-- `pop_off()`. -/
def popOff (c : C) : Except Panic (State P L W A C σ) :=
  let cpu := s.cpu c
  if cpu.sie then .error .popOffInterruptible
  else if cpu.noff < 1 then .error .popOff
  else .ok (s.setCpu c { cpu with
    noff := cpu.noff - 1
    -- The outermost one enables them again, if they were enabled.
    sie := cpu.sie || (cpu.noff - 1 == 0 && cpu.intena) })

/-- Wake a process up that sleeps. -/
def rouse (q : P) : State P L W A C σ := s.setProc q { s.proc q with state := .runnable }

/-- A new process. -/
def begin (q : P) : State P L W A C σ :=
  -- The context of the new thread returns to `forkret`.
  s.setProc q { s.proc q with state := .runnable, code := forkret q }

/-- `freeproc(p)`. -/
def freeproc (q : P) : State P L W A C σ :=
  s.setProc q { s.proc q with
    chan := none
    killed := false
    state := .unused }

variable {s} {c c' : C} {p : P} {k : List (Instr P L W A)}

theorem code_of_some (h : (s.cpu c).cur = some p) : s.code c = (s.proc p).code := by
  unfold code
  rw [h]

theorem code_of_none (h : (s.cpu c).cur = none) : s.code c = (s.cpu c).code := by
  unfold code
  rw [h]

theorem setCode_of_some (h : (s.cpu c).cur = some p) :
    s.setCode c k = s.setProc p { s.proc p with code := k } := by
  unfold setCode
  rw [h]

theorem setCode_of_none (h : (s.cpu c).cur = none) :
    s.setCode c k = s.setCpu c { s.cpu c with code := k } := by
  unfold setCode
  rw [h]

@[simp] theorem lock_setProc {pr : Proc P L W A} : (s.setProc p pr).lock = s.lock := rfl

@[simp] theorem cpu_setProc {pr : Proc P L W A} : (s.setProc p pr).cpu = s.cpu := rfl

@[simp] theorem proc_setProc {pr : Proc P L W A} : (s.setProc p pr).proc p = pr :=
  Function.update_self ..

@[simp] theorem lock_setCpu {cpu : Cpu P L W A} : (s.setCpu c cpu).lock = s.lock := rfl

@[simp] theorem proc_setCpu {cpu : Cpu P L W A} : (s.setCpu c cpu).proc = s.proc := rfl

@[simp] theorem cpu_setCpu {cpu : Cpu P L W A} : (s.setCpu c cpu).cpu c = cpu :=
  Function.update_self ..

@[simp] theorem cpu_setLock {l : Lock P L} {holder : Option C} :
    (s.setLock l holder).cpu = s.cpu := rfl

@[simp] theorem proc_setLock {l : Lock P L} {holder : Option C} :
    (s.setLock l holder).proc = s.proc := rfl

@[simp] theorem lock_setLock {l : Lock P L} {holder : Option C} :
    (s.setLock l holder).lock l = holder :=
  Function.update_self ..

theorem lock_setLock_of_ne {l l' : Lock P L} {holder : Option C} (h : l' ≠ l) :
    (s.setLock l holder).lock l' = s.lock l' :=
  Function.update_of_ne h ..

theorem proc_setProc_of_ne {q : P} {pr : Proc P L W A} (h : q ≠ p) :
    (s.setProc p pr).proc q = s.proc q :=
  Function.update_of_ne h ..

theorem cpu_setCpu_of_ne {cpu : Cpu P L W A} (h : c' ≠ c) : (s.setCpu c cpu).cpu c' = s.cpu c' :=
  Function.update_of_ne h ..

@[simp] theorem lock_setCode : (s.setCode c k).lock = s.lock := by
  unfold setCode
  split <;> rfl

@[simp] theorem data_setCode : (s.setCode c k).data = s.data := by
  unfold setCode
  split <;> rfl

/-- The CPUs keep all but the code of their schedulers. -/
theorem cpu_setCode (c' : C) : ∃ code, (s.setCode c k).cpu c' = { s.cpu c' with code := code } ∧
    ((s.cpu c).cur ≠ none ∨ c' ≠ c → code = (s.cpu c').code) := by
  cases hcur : (s.cpu c).cur with
  | some p => exact ⟨(s.cpu c').code, by rw [setCode_of_some hcur]; rfl, fun _ => rfl⟩
  | none =>
    rw [setCode_of_none hcur]
    by_cases h : c' = c
    · subst h
      exact ⟨k, cpu_setCpu, fun hc => (hc.elim (fun hn => hn rfl) fun hn => hn rfl).elim⟩
    · exact ⟨(s.cpu c').code, cpu_setCpu_of_ne h, fun _ => rfl⟩

theorem cpu_setCode_of_ne (h : c' ≠ c) : (s.setCode c k).cpu c' = s.cpu c' := by
  obtain ⟨code, hcpu, hcode⟩ := cpu_setCode (s := s) (c := c) (k := k) c'
  rw [hcpu, hcode (Or.inr h)]

theorem cpu_setCode_of_some (h : (s.cpu c).cur = some p) : (s.setCode c k).cpu c = s.cpu c := by
  rw [setCode_of_some h]
  rfl

@[simp] theorem cur_setCode : ((s.setCode c k).cpu c').cur = (s.cpu c').cur := by
  obtain ⟨code, hcpu, -⟩ := cpu_setCode (s := s) (c := c) (k := k) c'
  rw [hcpu]

@[simp] theorem noff_setCode : ((s.setCode c k).cpu c').noff = (s.cpu c').noff := by
  obtain ⟨code, hcpu, -⟩ := cpu_setCode (s := s) (c := c) (k := k) c'
  rw [hcpu]

@[simp] theorem sie_setCode : ((s.setCode c k).cpu c').sie = (s.cpu c').sie := by
  obtain ⟨code, hcpu, -⟩ := cpu_setCode (s := s) (c := c) (k := k) c'
  rw [hcpu]

@[simp] theorem cproc_setCode : ((s.setCode c k).cpu c').proc = (s.cpu c').proc := by
  obtain ⟨code, hcpu, -⟩ := cpu_setCode (s := s) (c := c) (k := k) c'
  rw [hcpu]

@[simp] theorem cintena_setCode : ((s.setCode c k).cpu c').intena = (s.cpu c').intena := by
  obtain ⟨code, hcpu, -⟩ := cpu_setCode (s := s) (c := c) (k := k) c'
  rw [hcpu]

/-- The processes keep all but their code. -/
theorem proc_setCode (q : P) : ∃ code, (s.setCode c k).proc q = { s.proc q with code := code } ∧
    ((s.cpu c).cur ≠ some q → code = (s.proc q).code) := by
  cases hcur : (s.cpu c).cur with
  | some p =>
    rw [setCode_of_some hcur]
    by_cases h : q = p
    · subst h
      exact ⟨k, proc_setProc, fun hc => (hc rfl).elim⟩
    · exact ⟨(s.proc q).code, proc_setProc_of_ne h, fun _ => rfl⟩
  | none => exact ⟨(s.proc q).code, by rw [setCode_of_none hcur]; rfl, fun _ => rfl⟩

theorem proc_setCode_of_ne (h : (s.cpu c).cur ≠ some p) : (s.setCode c k).proc p = s.proc p := by
  obtain ⟨code, hproc, hcode⟩ := proc_setCode (s := s) (c := c) (k := k) p
  rw [hproc, hcode h]

@[simp] theorem state_setCode : ((s.setCode c k).proc p).state = (s.proc p).state := by
  obtain ⟨code, hproc, -⟩ := proc_setCode (s := s) (c := c) (k := k) p
  rw [hproc]

@[simp] theorem chan_setCode : ((s.setCode c k).proc p).chan = (s.proc p).chan := by
  obtain ⟨code, hproc, -⟩ := proc_setCode (s := s) (c := c) (k := k) p
  rw [hproc]

@[simp] theorem intena_setCode : ((s.setCode c k).proc p).intena = (s.proc p).intena := by
  obtain ⟨code, hproc, -⟩ := proc_setCode (s := s) (c := c) (k := k) p
  rw [hproc]

@[simp] theorem code_setCode : (s.setCode c k).code c = k := by
  cases hcur : (s.cpu c).cur with
  | some p =>
    rw [code_of_some (cur_setCode.trans hcur), setCode_of_some hcur, proc_setProc]
  | none =>
    rw [code_of_none (cur_setCode.trans hcur), setCode_of_none hcur, cpu_setCpu]

end State

/-! ## Instructions -/

section

variable (K : Kernel P L W A σ)

/-- An instruction of the thread of the process `p`. -/
def execProc (s : State P L W A C σ) (c : C) (p : P) : Instr P L W A → List (Instr P L W A) →
    Except Panic (State P L W A C σ)
  -- What the round does first may take and release locks; the test comes in a step of its own.
  | .await w, k => .ok (s.setCode c (K.round p w s.data ++ .test w :: k))
  | .test w, k =>
    .ok (s.setCode c (if K.waits w s.data (s.proc p).killed then sleep p w (K.guard w) ++
      .await w :: k else k))
  | .setSleeping w, k =>
    .ok (s.setProc p { s.proc p with
      chan := some w
      state := .sleeping
      code := k })
  | .setRunnable, k => .ok (s.setProc p { s.proc p with state := .runnable, code := k })
  | .setZombie, k => .ok (s.setProc p { s.proc p with state := .zombie, code := k })
  -- The four tests of `sched`, in its order.
  | .sched, k =>
    if s.lock (.proc p) ≠ some c then .error .schedLock
    else if (s.cpu c).noff ≠ 1 then .error .schedLocks
    else if (s.proc p).state = .running then .error .schedRunning
    else if (s.cpu c).sie then .error .schedInterruptible
    -- `intena` lies on the stack of the process, and the CPU goes on with its scheduler.
    else .ok ((s.setProc p { s.proc p with
      intena := (s.cpu c).intena
      code := .restoreIntena :: k }).setCpu c { s.cpu c with cur := none })
  -- Perhaps on another CPU than before.
  | .restoreIntena, k =>
    .ok ((s.setCpu c { s.cpu c with intena := (s.proc p).intena }).setCode c k)
  | .clearChan, k => .ok (s.setProc p { s.proc p with chan := none, code := k })
  -- In user space interrupts are enabled.
  | .userret, _ => .ok ((s.setCpu c { s.cpu c with sie := true }).setCode c [])
  | .zombieExit, _ => .error .zombieExit
  | _, k => .ok (s.setCode c k)

/-- An instruction of the scheduler. -/
def execScheduler (s : State P L W A C σ) (c : C) : Instr P L W A → List (Instr P L W A) →
    Except Panic (State P L W A C σ)
  | .dispatch p, k =>
    if (s.proc p).state = .runnable then
      -- The process goes on with the code that it has left, and with the lock that the scheduler
      -- took.
      .ok ((s.setProc p { s.proc p with state := .running }).setCpu c
        { s.cpu c with proc := some p, cur := some p, code := .clearProc :: k })
    -- The process cannot run: its lock is released again.
    else .ok (s.setCode c k)
  | .clearProc, k => .ok ((s.setCpu c { s.cpu c with proc := none }).setCode c k)
  | _, k => .ok (s.setCode c k)

/-- An instruction of any thread. A CPU that spins on a lock that is held does nothing. -/
def execInstr (s : State P L W A C σ) (c : C) (i : Instr P L W A) (k : List (Instr P L W A)) :
    Except Panic (State P L W A C σ) :=
  match i with
  | .acquire l =>
    -- `holding`: a CPU that takes a lock twice panics.
    if s.lock l = some c then .error .acquire
    else .ok ((s.pushOff c).setCode c (.spin l :: k))
  | .spin l =>
    -- The atomic swap of the loop.
    if s.lock l = none then .ok ((s.setLock l (some c)).setCode c k)
    else .ok s
  | .release l =>
    if s.lock l ≠ some c then .error .release
    -- The lock is free before interrupts may be enabled.
    else ((s.setLock l none).popOff c).map fun s => s.setCode c k
  | .act a => .ok ({ s with data := K.perform a (s.cpu c).proc s.data }.setCode c k)
  | .wake q w =>
    -- Conditions may share a channel.
    if (s.proc q).state = .sleeping ∧ (s.proc q).chan.map K.chan = some (K.chan w) then
      .ok ((s.rouse q).setCode c k)
    else .ok (s.setCode c k)
  | .kill q =>
    -- `kkill` marks the process, whatever its state is, and ends its sleep.
    let s := s.setProc q { s.proc q with killed := true }
    if (s.proc q).state = .sleeping then .ok ((s.rouse q).setCode c k) else .ok (s.setCode c k)
  | .start q =>
    if (s.proc q).state = .unused then .ok ((s.begin q).setCode c k) else .ok (s.setCode c k)
  | .free q =>
    if (s.proc q).state = .zombie then .ok ((s.freeproc q).setCode c k) else .ok (s.setCode c k)
  | .intrOn => .ok ((s.setCpu c { s.cpu c with sie := true }).setCode c k)
  | .intrOff => .ok ((s.setCpu c { s.cpu c with sie := false }).setCode c k)
  | .sret => .ok ((s.setCpu c { s.cpu c with sie := true }).setCode c k)
  | i =>
    match (s.cpu c).cur with
    | some p => execProc K s c p i k
    | none => execScheduler s c i k

/-- The next instruction of a CPU. A process without code is in user space; a scheduler
begins its next round. -/
def exec (s : State P L W A C σ) (c : C) : Except Panic (State P L W A C σ) :=
  match s.code c with
  | i :: k => execInstr K s c i k
  | [] =>
    match (s.cpu c).cur with
    -- Until it enters the kernel again, which is an event of its own.
    | some _ => .ok s
    | none => .ok (s.setCode c (scheduler K.procs))

/-- What happens: a CPU executes an instruction; it takes an interrupt, whose handler is given; or
the process that it runs in user space enters the kernel. -/
inductive Event (P L W A C : Type)
  | run (c : C)
  | interrupt (c : C) (handler : List (Instr P L W A))
  | enter (c : C) (code : List (Instr P L W A))

/-- The code that threads may run: the handlers of interrupts, and what a process does from where it
enters the kernel to where it leaves it. -/
structure Program (P L W A : Type) where
  handler : Option P → List (Instr P L W A) → Prop
  entry : P → List (Instr P L W A) → Prop

/-- The steps. -/
inductive Step (prog : Program P L W A) : State P L W A C σ → Event P L W A C →
    State P L W A C σ → Prop
  | run {s s' : State P L W A C σ} {c : C} (h : exec K s c = .ok s') : Step prog s (.run c) s'
  | interrupt {s : State P L W A C σ} {c : C} {handler : List (Instr P L W A)}
      (enabled : (s.cpu c).sie = true)
      (kernel : s.code c ≠ []) (allowed : prog.handler (s.cpu c).proc handler) :
      Step prog s (.interrupt c handler)
        ((s.setCpu c { s.cpu c with sie := false }).setCode c (handler ++ .sret :: s.code c))
  | enter {s : State P L W A C σ} {c : C} {p : P} {code : List (Instr P L W A)}
      (cur : (s.cpu c).cur = some p) (user : s.code c = []) (allowed : prog.entry p code) :
      Step prog s (.enter c code) ((s.setCpu c { s.cpu c with sie := false }).setCode c code)

/-- The state after an event, when it can happen. -/
def State.next (prog : Program P L W A) [∀ me code, Decidable (prog.handler me code)]
    [∀ p code, Decidable (prog.entry p code)] (s : State P L W A C σ) :
    Event P L W A C → Option (State P L W A C σ)
  | .run c => (exec K s c).toOption
  | .interrupt c handler =>
    if (s.cpu c).sie = true ∧ s.code c ≠ [] ∧ prog.handler (s.cpu c).proc handler then
      some ((s.setCpu c { s.cpu c with sie := false }).setCode c (handler ++ .sret :: s.code c))
    else none
  | .enter c code =>
    (s.cpu c).cur.bind fun p =>
      if s.code c = [] ∧ prog.entry p code then
        some ((s.setCpu c { s.cpu c with sie := false }).setCode c code)
      else none

theorem step_of_next {prog : Program P L W A} [∀ me code, Decidable (prog.handler me code)]
    [∀ p code, Decidable (prog.entry p code)] {s s' : State P L W A C σ} {e : Event P L W A C}
    (h : s.next K prog e = some s') : Step K prog s e s' := by
  cases e with
  | run c =>
    have hok : (exec K s c).toOption = some s' := h
    apply Step.run
    cases hexec : exec K s c with
    | error e =>
      rw [hexec] at hok
      cases hok
    | ok s₁ =>
      rw [hexec] at hok
      cases hok
      rfl
  | interrupt c handler =>
    obtain ⟨⟨hsie, hcode, hallowed⟩, hs⟩ := Option.ite_none_right_eq_some.mp h
    cases hs
    exact .interrupt hsie hcode hallowed
  | enter c code =>
    obtain ⟨p, hcur, hif⟩ := Option.bind_eq_some_iff.mp h
    obtain ⟨⟨huser, hallowed⟩, hs⟩ := Option.ite_none_right_eq_some.mp hif
    cases hs
    exact .enter hcur huser hallowed

end

end

end Xv6.Sched
