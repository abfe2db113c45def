import OsnMp2.Lib.Runs
import Mathlib.Logic.Function.Basic
import Mathlib.Tactic.Common

/-!
# The life of a process

`kfork`, `kexit` with `reparent`, `kwait` and `kkill` of `proc.c`, for the 64 slots of the process
table, as far as the states, the parents and the statuses of the processes go; their memory and
their files are not in it. `wait_lock` may be taken by one process at a time, and the loops over the
table make one step for each slot; between the steps the other processes make theirs. A process that
has exited holds its own lock until it has switched away from its stack.

RUNNABLE and RUNNING are one state here, and the only place where a process sleeps is `kwait`.

## Main definitions

* `State`: the fields of the slots, and `wait_lock`
* `exec`: what happens at an event
* `Place.Good`: what holds of a process at a place
* `Safe`: what holds of the table

## Main results

* `Inv.step`: every step keeps the invariant
* `Inv.freed`: who frees a slot
* `lifecycle_safe`: what holds of the table, in every state of every run
-/

namespace Xv6.Lifecycle

/-- `NPROC`. -/
def nproc : Nat := 64

/-- `enum procstate`. -/
inductive ProcState
  | unused
  | used
  | sleeping
  | runnable
  | zombie
deriving DecidableEq

/-- Where a process is. -/
inductive Place
  /-- in none of the functions -/
  | user
  /-- in `kfork`, with a new process whose parent is not set -/
  | forked (q : Nat)
  /-- in `kfork`, with a new process that is not yet RUNNABLE -/
  | adopted (q : Nat)
  /-- in `kexit`, before `acquire(&wait_lock)` -/
  | exiting (status : Int)
  /-- in `reparent`, at the slot `i` -/
  | reparenting (i : Nat) (status : Int)
  /-- in `kexit`, after `reparent` -/
  | reparented (status : Int)
  /-- in `kexit`, after `wakeup(p->parent)` -/
  | woken (status : Int)
  /-- a ZOMBIE on its stack, with its lock -/
  | exited (status : Int)
  /-- a ZOMBIE -/
  | gone (status : Int)
  /-- in `kwait`, before it has `wait_lock` -/
  | waiting (addr : Nat)
  /-- in the loop of `kwait`, at the slot `i` -/
  | scanning (addr i : Nat) (havekids : Bool)
  /-- in `kwait`, before `sleep(p, &wait_lock)` -/
  | resting (addr : Nat)
  /-- in `sleep(p, &wait_lock)` -/
  | asleep (addr : Nat)
deriving DecidableEq

/-- The fields of the slots, `wait_lock`, `initproc` and `nextpid`; `result` is what `kwait` has
returned last, the pid and the status that it has copied, or none for -1. -/
structure State where
  state : Nat → ProcState
  pid : Nat → Nat
  parent : Nat → Option Nat
  killed : Nat → Bool
  xstate : Nat → Int
  place : Nat → Place
  result : Nat → Option (Nat × Option Int) := fun _ => none
  waitLock : Option Nat := none
  initproc : Nat
  nextpid : Nat

/-! ## The functions -/

/-- The process `p` goes on at a place. -/
def State.goto (s : State) (p : Nat) (place : Place) :
    State := { s with place := Function.update s.place p place }

/-- `allocproc`, in the slot `q`. -/
def State.alloc (s : State) (q : Nat) : State :=
  { s with
    state := Function.update s.state q .used
    pid := Function.update s.pid q s.nextpid
    nextpid := s.nextpid + 1 }

/-- `freeproc`, of the slot `q`. -/
def State.freeproc (s : State) (q : Nat) : State :=
  { s with
    state := Function.update s.state q .unused
    pid := Function.update s.pid q 0
    parent := Function.update s.parent q none
    killed := Function.update s.killed q false
    xstate := Function.update s.xstate q 0
    place := Function.update s.place q .user }

/-- The process `q` wakes up, when it sleeps in `kwait`. -/
def State.wake (s : State) (q : Nat) : State :=
  match s.place q with
  | .asleep addr => { s.goto q (.waiting addr) with state := Function.update s.state q .runnable }
  | _ => s

/-- A round of the loop of `reparent`. -/
def State.adoptOne (s : State) (p i : Nat) : State :=
  if s.parent i = some p then
    ({ s with parent := Function.update s.parent i (some s.initproc) } : State).wake s.initproc
  else s

/-- `wakeup(p->parent)`. -/
def State.wakeParent (s : State) (p : Nat) : State :=
  match s.parent p with
  | none => s
  | some q => s.wake q

/-- `release(&wait_lock)`, and `kwait` returns. -/
def State.finish (s : State) (p : Nat) (result : Option (Nat × Option Int)) : State :=
  { s.goto p .user with result := Function.update s.result p result, waitLock := none }

/-- What `kwait` returns for the ZOMBIE in the slot `i`. -/
def State.found (s : State) (i addr : Nat) : Option (Nat × Option Int) :=
  some (s.pid i, if addr = 0 then none else some (s.xstate i))

/-- The process has its own lock, which it has taken in `kexit`. -/
def Place.onStack : Place → Bool
  | .exited _ => true
  | _ => false

/-- A round of the loop of `kwait`, at the slot `i`, or what comes after the loop; `copied` is
whether `copyout` succeeds. -/
def State.scan (s : State) (p addr i : Nat) (havekids copied : Bool) : Option State :=
  if i < nproc then
    if s.parent i = some p then
      -- `acquire(&pp->lock)`
      if (s.place i).onStack then none
      else if s.state i = .zombie then
        -- The ZOMBIE stays for the next call when its status cannot be copied.
        if addr ≠ 0 ∧ copied = false then some (s.finish p none)
        else some ((s.freeproc i).finish p (s.found i addr))
      -- A child that has not exited.
      else some (s.goto p (.scanning addr (i + 1) true))
    else some (s.goto p (.scanning addr (i + 1) havekids))
  -- The table has been seen to its end.
  else if havekids = false ∨ s.killed p then some (s.finish p none)
  else some (s.goto p (.resting addr))

/-! ## The system -/

inductive Event
  /-- the scan of `allocproc` in `kfork` ends at a slot, or at none: it sees the slots one after the
  other, and others may free and take slots meanwhile -/
  | fork (p : Nat) (slot : Option Nat)
  /-- `kfork` has no memory for the new process -/
  | forkFail (p : Nat)
  /-- `np->parent = p` -/
  | adopt (p : Nat)
  /-- `np->state = RUNNABLE` -/
  | start (p : Nat)
  /-- `kexit` -/
  | exit (p : Nat) (status : Int)
  | exitLock (p : Nat)
  /-- a round of the loop of `reparent`, or its end -/
  | reparent (p : Nat)
  | wakeParent (p : Nat)
  /-- `p->state = ZOMBIE; release(&wait_lock)` -/
  | zombie (p : Nat)
  /-- the scheduler releases the lock of the process -/
  | switch (p : Nat)
  /-- `kwait` -/
  | wait (p addr : Nat)
  | waitLock (p : Nat)
  | scan (p : Nat) (copied : Bool)
  | sleep (p : Nat)
  /-- `kkill`, which finds the slot `q` -/
  | kill (q : Nat)

/-- The state after an event that can happen. `kexit` of the first process panics. -/
def exec (s : State) : Event → Option State
  | .fork p none => if s.state p = .runnable ∧ s.place p = .user then some s else none
  | .fork p (some q) =>
    if s.state p = .runnable ∧ s.place p = .user ∧ q < nproc ∧ s.state q = .unused then
      some ((s.alloc q).goto p (.forked q))
    else none
  | .forkFail p =>
    match s.place p with
    | .forked q => some ((s.freeproc q).goto p .user)
    | _ => none
  | .adopt p =>
    match s.place p with
    | .forked q =>
      -- The lock is taken and released within the step.
      if s.waitLock = none then
        some { s.goto p (.adopted q) with parent := Function.update s.parent q (some p) }
      else none
    | _ => none
  | .start p =>
    match s.place p with
    | .adopted q => some { s.goto p .user with state := Function.update s.state q .runnable }
    | _ => none
  | .exit p status =>
    if s.state p = .runnable ∧ s.place p = .user ∧ p ≠ s.initproc then
      some (s.goto p (.exiting status)) else none
  | .exitLock p =>
    match s.place p with
    | .exiting status =>
      if s.waitLock = none then some { s.goto p (.reparenting 0 status) with waitLock := some p }
        else none
    | _ => none
  | .reparent p =>
    match s.place p with
    | .reparenting i status =>
      if i < nproc then some ((s.adoptOne p i).goto p (.reparenting (i + 1) status))
      else some (s.goto p (.reparented status))
    | _ => none
  | .wakeParent p =>
    match s.place p with
    | .reparented status => some ((s.wakeParent p).goto p (.woken status))
    | _ => none
  | .zombie p =>
    match s.place p with
    | .woken status =>
      -- The lock of the process stays taken: the scheduler releases it.
      some { s.goto p (.exited status) with
        state := Function.update s.state p .zombie
        xstate := Function.update s.xstate p status
        waitLock := none }
    | _ => none
  | .switch p =>
    match s.place p with
    | .exited status => some (s.goto p (.gone status))
    | _ => none
  | .wait p addr => if s.state p = .runnable ∧ s.place p = .user then
      some (s.goto p (.waiting addr)) else none
  | .waitLock p =>
    match s.place p with
    | .waiting addr =>
      if s.waitLock = none then some { s.goto p (.scanning addr 0 false) with waitLock := some p }
        else none
    | _ => none
  | .scan p copied =>
    match s.place p with
    | .scanning addr i havekids => s.scan p addr i havekids copied
    | _ => none
  | .sleep p =>
    match s.place p with
    | .resting addr =>
      some { s.goto p (.asleep addr) with
        state := Function.update s.state p .sleeping
        waitLock := none }
    | _ => none
  | .kill q =>
    -- `acquire(&p->lock)`
    if q < nproc ∧ (s.place q).onStack = false then
      some (({ s with killed := Function.update s.killed q true } : State).wake q)
    else none

def Step (s : State) (e : Event) (s' : State) : Prop := exec s e = some s'

/-- The state after `userinit`. -/
structure Boot (s : State) : Prop where
  init : s.initproc < nproc
  state : ∀ p, s.state p = if p = s.initproc then .runnable else .unused
  parent : ∀ p, s.parent p = none
  place : ∀ p, s.place p = .user
  waitLock : s.waitLock = none

/-! ## What holds -/

/-- The process may still act. -/
def State.Alive (s : State) (p : Nat) : Prop := s.state p = .runnable ∨ s.state p = .sleeping

/-- **What holds of the process table.** -/
structure Safe (s : State) : Prop where
  /-- the first process does not exit -/
  init : s.Alive s.initproc
  /-- every process, a ZOMBIE as well, has a parent that may still act -/
  parent : ∀ p, p ≠ s.initproc → s.Alive p ∨ s.state p = .zombie → ∃ q, s.parent p = some q ∧
    s.Alive q
  /-- a process that sleeps in `kwait` has a child, and no ZOMBIE among its children -/
  waits : ∀ p, s.state p = .sleeping → (∃ c, s.parent c = some p) ∧ ∀ c, s.parent c = some p →
    s.state c ≠ .zombie
  /-- a slot is freed by the fork that fails, or by the parent, which gets the status of the
  `kexit`, after the process has left its stack -/
  freed : ∀ e s', Step s e s' → ∀ c, s.state c ≠ .unused → s'.state c = .unused →
    (∃ p, e = .forkFail p ∧ s.place p = .forked c ∧ s.state c = .used) ∨
      ∃ p copied addr havekids status, e = .scan p copied ∧ s.place p = .scanning addr c havekids ∧
        s.parent c = some p ∧ s.place c = .gone status ∧
        s'.result p = some (s.pid c, if addr = 0 then none else some status)

/-- The process has `wait_lock` at the place. -/
def Place.holds : Place → Bool
  | .reparenting .. => true
  | .reparented _ => true
  | .woken _ => true
  | .scanning .. => true
  | .resting _ => true
  | _ => false

/-- It matters at the place what children the process has. -/
def Place.watches : Place → Bool
  | .asleep _ => true
  | place => place.holds

/-- The new process of `kfork`. -/
def Place.makes : Place → Option Nat
  | .forked q => some q
  | .adopted q => some q
  | _ => none

/-- The state that a process has at the place; outside of the functions it may have several. -/
def Place.state : Place → Option ProcState
  | .user => none
  | .exited _ => some .zombie
  | .gone _ => some .zombie
  | .asleep _ => some .sleeping
  | _ => some .runnable

/-- **What holds of the process `p` at a place.** -/
def Place.Good (s : State) (p : Nat) : Place → Prop
  | .user => s.state p ≠ .sleeping ∧ s.state p ≠ .zombie
  | .forked q => s.state p = .runnable ∧ s.state q = .used ∧ s.parent q = none
  | .adopted q => s.state p = .runnable ∧ s.state q = .used ∧ s.parent q = some p
  | .exiting _ => s.state p = .runnable ∧ p ≠ s.initproc
  | .reparenting i _ =>
    s.state p = .runnable ∧ p ≠ s.initproc ∧ s.waitLock = some p ∧ ∀ c < i, s.parent c ≠ some p
  | .reparented _ => s.state p = .runnable ∧ p ≠ s.initproc ∧ s.waitLock = some p ∧
      ∀ c, s.parent c ≠ some p
  | .woken _ =>
    s.state p = .runnable ∧ p ≠ s.initproc ∧ s.waitLock = some p ∧ (∀ c, s.parent c ≠ some p) ∧
      ∀ q, s.parent p = some q → s.state q ≠ .sleeping
  | .exited status => s.state p = .zombie ∧ p ≠ s.initproc ∧ s.xstate p = status
  | .gone status => s.state p = .zombie ∧ p ≠ s.initproc ∧ s.xstate p = status
  | .waiting _ => s.state p = .runnable
  | .scanning _ i havekids =>
    s.state p = .runnable ∧ s.waitLock = some p ∧ (∀ c < i, s.parent c = some p →
      s.state c ≠ .zombie) ∧
      (havekids = true → ∃ c, s.parent c = some p) ∧
      (havekids = false → ∀ c < i, s.parent c ≠ some p)
  | .resting _ =>
    s.state p = .runnable ∧ s.waitLock = some p ∧ (∃ c, s.parent c = some p) ∧
      ∀ c, s.parent c = some p → s.state c ≠ .zombie
  | .asleep _ =>
    s.state p = .sleeping ∧ (∃ c, s.parent c = some p) ∧ ∀ c, s.parent c = some p →
      s.state c ≠ .zombie

/-- **The invariant.** -/
structure Inv (s : State) : Prop where
  good : ∀ p, (s.place p).Good s p
  lock : ∀ p, s.waitLock = some p → (s.place p).holds = true
  maker : ∀ p p' q, (s.place p).makes = some q → (s.place p').makes = some q → p = p'
  alive : ∀ c p, s.parent c = some p → s.Alive p
  parent : ∀ c, c ≠ s.initproc → s.Alive c ∨ s.state c = .zombie → s.parent c ≠ none
  unused : ∀ c, s.state c = .unused → s.parent c = none
  bound : ∀ c, nproc ≤ c → s.state c = .unused
  init : s.Alive s.initproc

section

variable {s s' : State} {p q i : Nat} {place : Place}

/-! ## A place and the state of a process -/

theorem Place.Good.holds (h : place.Good s p) (hholds : place.holds = true) :
    s.waitLock = some p := by
  cases place with
  | reparenting i status => exact h.2.2.1
  | reparented status => exact h.2.2.1
  | woken status => exact h.2.2.1
  | scanning addr i havekids => exact h.2.1
  | resting addr => exact h.2.1
  | _ => cases hholds

theorem Inv.good_at (h : Inv s) (hplace : s.place p = place) : place.Good s p := hplace ▸ h.good p

theorem Inv.not_lock (h : Inv s) (hplace : s.place p = place) (hholds : place.holds = false) :
    s.waitLock ≠ some p := fun hlock => by
  have hlock := h.lock p hlock
  rw [hplace, hholds] at hlock
  cases hlock

theorem Place.Good.runnable (h : place.Good s p) (hholds : place.holds = true) :
    s.state p = .runnable := by
  cases place with
  | reparenting _ _ | reparented _ | woken _ | scanning _ _ _ | resting _ => exact h.1
  | _ => cases hholds

/-- Who has `wait_lock` has it alone. -/
theorem Inv.holds (h : Inv s) (hp : (s.place p).holds = true) (hne : q ≠ p) :
    (s.place q).holds = false := by
  by_contra hq
  have hlock := (h.good q).holds (by simpa using hq)
  rw [(h.good p).holds hp] at hlock
  exact hne (Option.some.inj hlock).symm

theorem Inv.free (h : Inv s) (hlock : s.waitLock = none) (q : Nat) : (s.place q).holds = false := by
  by_contra hq
  have hsome := (h.good q).holds (by simpa using hq)
  rw [hlock] at hsome
  cases hsome

theorem Place.Good.makes (h : place.Good s p) (hmakes : place.makes = some q) :
    s.state p = .runnable ∧ s.state q = .used := by
  cases place with
  | forked q' =>
    cases hmakes
    exact ⟨h.1, h.2.1⟩
  | adopted q' =>
    cases hmakes
    exact ⟨h.1, h.2.1⟩
  | _ => cases hmakes

theorem Place.Good.state {x : ProcState} (h : place.Good s p) (hx : place.state = some x) :
    s.state p = x := by
  cases place with
  | user => cases hx
  | waiting addr =>
    cases hx
    exact h
  | _ =>
    cases hx
    exact h.1

/-- A process that has not started is in none of the functions. -/
theorem Inv.user (h : Inv s) (hq : s.state q = .unused ∨ s.state q = .used) :
    s.place q = .user := by
  cases hplace : s.place q with
  | user => rfl
  | _ =>
    have hstate := (h.good_at hplace).state rfl
    rcases hq with hq | hq <;> cases hq.symm.trans hstate

/-- A process that sleeps is in `kwait`. -/
theorem Inv.asleep (h : Inv s) (hq : s.state q = .sleeping) : ∃ addr, s.place q = .asleep addr := by
  cases hplace : s.place q with
  | asleep addr => exact ⟨addr, rfl⟩
  | user => exact absurd hq (h.good_at hplace).1
  | _ => cases hq.symm.trans ((h.good_at hplace).state rfl)

/-- A ZOMBIE has left `kexit`. -/
theorem Inv.zombie (h : Inv s) (hq : s.state q = .zombie) :
    s.place q = .exited (s.xstate q) ∨ s.place q = .gone (s.xstate q) := by
  cases hplace : s.place q with
  | exited status => exact .inl (congrArg Place.exited (h.good_at hplace).2.2.symm)
  | gone status => exact .inr (congrArg Place.gone (h.good_at hplace).2.2.symm)
  | user => exact absurd hq (h.good_at hplace).2
  | _ => cases hq.symm.trans ((h.good_at hplace).state rfl)

theorem Inv.safe_waits (h : Inv s) (hp : s.state p = .sleeping) :
    (∃ c, s.parent c = some p) ∧ ∀ c, s.parent c = some p → s.state c ≠ .zombie := by
  obtain ⟨addr, hplace⟩ := h.asleep hp
  have hgood := h.good_at hplace
  exact hgood.2

/-! ## What other processes do -/

/-- What holds at a place is left alone by what other processes do: the children of a process matter
only while it has `wait_lock` or sleeps. -/
theorem Place.Good.frame (h : place.Good s p) (hstate : s'.state p = s.state p)
    (hxstate : s'.xstate p = s.xstate p) (hinit : s'.initproc = s.initproc)
    (hlock : place.holds = true → s'.waitLock = s.waitLock)
    (hmakes : ∀ q, place.makes = some q → s'.state q = s.state q ∧ s'.parent q = s.parent q)
    (hchild : place.watches = true → ∀ c, s'.parent c = some p ↔ s.parent c = some p)
    (hzombie : place.watches = true → ∀ c, s.parent c = some p → s'.state c = .zombie →
      s.state c = .zombie)
    (hparent : place.holds = true → ∀ q, s'.parent p = some q → s'.state q = .sleeping →
      s.parent p = some q ∧ s.state q = .sleeping) : place.Good s' p := by
  cases place with
  | user => exact ⟨hstate ▸ h.1, hstate ▸ h.2⟩
  | forked q => exact ⟨hstate.trans h.1, (hmakes q rfl).1.trans h.2.1, (hmakes q rfl).2.trans h.2.2⟩
  | adopted q => exact ⟨hstate.trans h.1, (hmakes q rfl).1.trans h.2.1,
      (hmakes q rfl).2.trans h.2.2⟩
  | exiting status => exact ⟨hstate.trans h.1, hinit ▸ h.2⟩
  | reparenting i status =>
    exact ⟨hstate.trans h.1, hinit ▸ h.2.1, (hlock rfl).trans h.2.2.1,
      fun c hc hp => h.2.2.2 c hc ((hchild rfl c).mp hp)⟩
  | reparented status =>
    exact ⟨hstate.trans h.1, hinit ▸ h.2.1, (hlock rfl).trans h.2.2.1,
      fun c hp => h.2.2.2 c ((hchild rfl c).mp hp)⟩
  | woken status =>
    refine ⟨hstate.trans h.1, hinit ▸ h.2.1, (hlock rfl).trans h.2.2.1,
      fun c hp => h.2.2.2.1 c ((hchild rfl c).mp hp), fun q hq hsleep => ?_⟩
    obtain ⟨hq, hsleep⟩ := hparent rfl q hq hsleep
    exact h.2.2.2.2 q hq hsleep
  | exited status => exact ⟨hstate.trans h.1, hinit ▸ h.2.1, hxstate.trans h.2.2⟩
  | gone status => exact ⟨hstate.trans h.1, hinit ▸ h.2.1, hxstate.trans h.2.2⟩
  | waiting addr => exact hstate.trans h
  | scanning addr i havekids =>
    refine ⟨hstate.trans h.1, (hlock rfl).trans h.2.1, fun c hc hp hz => ?_, fun hk => ?_,
      fun hk c hc hp => ?_⟩
    · have hp := (hchild rfl c).mp hp
      exact h.2.2.1 c hc hp (hzombie rfl c hp hz)
    · exact (h.2.2.2.1 hk).imp fun c hp => (hchild rfl c).mpr hp
    · exact h.2.2.2.2 hk c hc ((hchild rfl c).mp hp)
  | resting addr =>
    refine ⟨hstate.trans h.1, (hlock rfl).trans h.2.1, h.2.2.1.imp fun c hp => (hchild rfl c).mpr
      hp, fun c hp hz => ?_⟩
    have hp := (hchild rfl c).mp hp
    exact h.2.2.2 c hp (hzombie rfl c hp hz)
  | asleep addr =>
    refine ⟨hstate.trans h.1, h.2.1.imp fun c hp => (hchild rfl c).mpr hp, fun c hp hz => ?_⟩
    have hp := (hchild rfl c).mp hp
    exact h.2.2 c hp (hzombie rfl c hp hz)

theorem Place.watches_of_holds (h : place.holds = false) (hwatches : place.watches = true) :
    ∃ addr, place = .asleep addr := by
  cases place with
  | asleep addr => exact ⟨addr, rfl⟩
  | _ => cases h.symm.trans hwatches

@[simp] theorem goto_place_self : (s.goto p place).place p = place := Function.update_self ..

@[simp] theorem goto_place_of_ne (h : q ≠ p) : (s.goto p place).place q = s.place q :=
  Function.update_of_ne h ..

/-- **A process goes on by itself**: its place changes, and it may take or give back `wait_lock`. -/
theorem Inv.move (h : Inv s) {l : Option Nat} (hgood : place.Good { s with waitLock := l } p)
    (hlock : l = some p → place.holds = true)
    (hother : ∀ q, q ≠ p → (s.place q).holds = true → l = s.waitLock)
    (hfree : ∀ q, q ≠ p → l = some q → s.waitLock = some q)
    (hmakes : ∀ q, place.makes = some q → (s.place p).makes = some q) :
    Inv { s.goto p place with waitLock := l } where
  good q := by
    by_cases hq : q = p
    · subst hq
      show Place.Good _ _ ((s.goto q place).place q)
      rw [goto_place_self]
      exact hgood.frame rfl rfl rfl (fun _ => rfl) (fun _ _ => ⟨rfl, rfl⟩) (fun _ _ => .rfl)
        (fun _ _ _ hz => hz) fun _ _ hq hs => ⟨hq, hs⟩
    · show Place.Good _ _ ((s.goto p place).place q)
      rw [goto_place_of_ne hq]
      exact (h.good q).frame rfl rfl rfl (hother q hq) (fun _ _ => ⟨rfl, rfl⟩) (fun _ _ => .rfl)
        (fun _ _ _ hz => hz) fun _ _ hq hs => ⟨hq, hs⟩
  lock q hq := by
    by_cases hqp : q = p
    · subst hqp
      show ((s.goto q place).place q).holds = true
      rw [goto_place_self]
      exact hlock hq
    · show ((s.goto p place).place q).holds = true
      rw [goto_place_of_ne hqp]
      exact h.lock q (hfree q hqp hq)
  maker a b q ha hb := by
    have hold : ∀ a, ((s.goto p place).place a).makes = some q → (s.place a).makes = some q := by
      intro a ha
      by_cases hap : a = p
      · subst hap
        rw [goto_place_self] at ha
        exact hmakes q ha
      · rwa [goto_place_of_ne hap] at ha
    exact h.maker a b q (hold a ha) (hold b hb)
  alive := h.alive
  parent := h.parent
  unused := h.unused
  bound := h.bound
  init := h.init

/-- What a step that changes one slot leaves of another process. -/
theorem Inv.other (h : Inv s) {r : Nat} (hr : r ≠ q) (hstate : ∀ x, x ≠ q → s'.state x = s.state x)
    (hxstate : s'.xstate r = s.xstate r) (hparent : ∀ x, x ≠ q → s'.parent x = s.parent x)
    (hinit : s'.initproc = s.initproc) (hlock : (s.place r).holds = true → s'.waitLock = s.waitLock)
    (hmakes : (s.place r).makes ≠ some q)
    (hchild : (s.place r).watches = true → (s'.parent q = some r ↔ s.parent q = some r))
    (hzombie : (s.place r).watches = true → s.parent q = some r → s'.state q = .zombie →
      s.state q = .zombie)
    (hsleep : (s.place r).holds = true → s'.state q = .sleeping → s.state q = .sleeping) :
    (s.place r).Good s' r := by
  refine (h.good r).frame (hstate r hr) hxstate hinit hlock (fun x hx => ?_) (fun hw c => ?_)
    (fun hw c hc hz => ?_) fun hh x hx hs => ?_
  · have hne : x ≠ q := fun heq => hmakes (heq ▸ hx)
    exact ⟨hstate x hne, hparent x hne⟩
  · by_cases hcq : c = q
    · rw [hcq]
      exact hchild hw
    · rw [hparent c hcq]
  · by_cases hcq : c = q
    · rw [hcq] at hc hz ⊢
      exact hzombie hw hc hz
    · rwa [hstate c hcq] at hz
  · rw [hparent r hr] at hx
    refine ⟨hx, ?_⟩
    by_cases hxq : x = q
    · rw [hxq] at hs ⊢
      exact hsleep hh hs
    · rwa [hstate x hxq] at hs

/-- **One slot changes**: what is left to show is that every process is well at its place, and that
the parent of the slot and the slot itself may still act where they must. -/
theorem Inv.change (h : Inv s) (hstate : ∀ x, x ≠ q → s'.state x = s.state x)
    (hparent : ∀ x, x ≠ q → s'.parent x = s.parent x) (hinit : s'.initproc = s.initproc)
    (hgood : ∀ r, (s'.place r).Good s' r)
    (hlock : ∀ r, s'.waitLock = some r → (s'.place r).holds = true)
    (hmakes : ∀ r x, (s'.place r).makes = some x → (s.place r).makes = some x)
    (halive : ∀ c, s'.parent c = some q → s'.Alive q)
    (hmother : ∀ r, r ≠ q → s'.parent q = some r → s'.Alive r)
    (horphan : q ≠ s.initproc → s'.Alive q ∨ s'.state q = .zombie → s'.parent q ≠ none)
    (hunused : s'.state q = .unused → s'.parent q = none)
    (hbound : nproc ≤ q → s'.state q = .unused) (hroot : q = s.initproc → s'.Alive q) : Inv s' where
  good := hgood
  lock := hlock
  maker a b x ha hb := h.maker a b x (hmakes a x ha) (hmakes b x hb)
  alive c r hr := by
    by_cases hrq : r = q
    · rw [hrq] at hr ⊢
      exact halive c hr
    by_cases hcq : c = q
    · rw [hcq] at hr
      exact hmother r hrq hr
    · rw [hparent c hcq] at hr
      unfold State.Alive
      rw [hstate r hrq]
      exact h.alive c r hr
  parent c hc hac := by
    rw [hinit] at hc
    by_cases hcq : c = q
    · rw [hcq] at hc hac ⊢
      exact horphan hc hac
    · unfold State.Alive at hac
      rw [hstate c hcq] at hac
      rw [hparent c hcq]
      exact h.parent c hc hac
  unused c hc := by
    by_cases hcq : c = q
    · rw [hcq] at hc ⊢
      exact hunused hc
    · rw [hstate c hcq] at hc
      rw [hparent c hcq]
      exact h.unused c hc
  bound c hc := by
    by_cases hcq : c = q
    · rw [hcq] at hc ⊢
      exact hbound hc
    · rw [hstate c hcq]
      exact h.bound c hc
  init := by
    rw [hinit]
    by_cases hq : s.initproc = q
    · rw [hq]
      exact hroot hq.symm
    · unfold State.Alive
      rw [hstate _ hq]
      exact h.init

/-- **A process goes on, and one slot changes.** -/
theorem Inv.act (h : Inv s) (hplace : s'.place = (s.goto p place).place)
    (hstate : ∀ x, x ≠ q → s'.state x = s.state x) (hparent : ∀ x, x ≠ q → s'.parent x = s.parent x)
    (hinit : s'.initproc = s.initproc) (hgood : place.Good s' p)
    (hother : ∀ r, r ≠ p → (s.place r).Good s' r)
    (hlock : s'.waitLock = s.waitLock ∨ s'.waitLock = none)
    (hholds : s'.waitLock = some p → place.holds = true)
    (hmakes : ∀ x, place.makes = some x → (s.place p).makes = some x)
    (halive : ∀ c, s'.parent c = some q → s'.Alive q)
    (hmother : ∀ r, r ≠ q → s'.parent q = some r → s'.Alive r)
    (horphan : q ≠ s.initproc → s'.Alive q ∨ s'.state q = .zombie → s'.parent q ≠ none)
    (hunused : s'.state q = .unused → s'.parent q = none)
    (hbound : nproc ≤ q → s'.state q = .unused) (hroot : q = s.initproc → s'.Alive q) : Inv s' := by
  refine h.change hstate hparent hinit (fun r => ?_) (fun r hr => ?_) (fun r x hx => ?_) halive
    hmother horphan hunused hbound hroot
  · rw [hplace]
    by_cases hrp : r = p
    · rw [hrp, goto_place_self]
      exact hgood
    · rw [goto_place_of_ne hrp]
      exact hother r hrp
  · rw [hplace]
    by_cases hrp : r = p
    · rw [hrp] at hr ⊢
      rw [goto_place_self]
      exact hholds hr
    · rw [goto_place_of_ne hrp]
      rcases hlock with hlock | hlock
      · exact h.lock r (hlock.symm.trans hr)
      · cases hlock.symm.trans hr
  · rw [hplace] at hx
    by_cases hrp : r = p
    · rw [hrp, goto_place_self] at hx
      rw [hrp]
      exact hmakes x hx
    · rwa [goto_place_of_ne hrp] at hx

theorem user_good {x : ProcState} (h : s.state p = x) (hx : x ≠ .sleeping ∧ x ≠ .zombie) :
    Place.user.Good s p := by
  subst h
  exact hx

/-- A place in none of the lines of `kfork` has no new process. -/
theorem makes_of_none (h : place.makes = none) (x : Nat) (hx : place.makes = some x) :
    (s.place p).makes = some x := by
  rw [h] at hx
  cases hx

/-- A slot that stays as it is keeps a parent that may still act. -/
theorem Inv.alive_of_ne (h : Inv s) {r : Nat} (hr : r ≠ q)
    (hstate : ∀ x, x ≠ q → s'.state x = s.state x)
    (hparent : s.parent i = some r) : s'.Alive r := by
  unfold State.Alive
  rw [hstate r hr]
  exact h.alive i r hparent

/-! ## `wakeup` -/

theorem wake_asleep {addr : Nat} (h : s.place q = .asleep addr) :
    s.wake q = { s.goto q (.waiting addr) with state := Function.update s.state q .runnable } := by
  unfold State.wake
  rw [h]

theorem wake_of_not (h : ∀ addr, s.place q ≠ .asleep addr) : s.wake q = s := by
  unfold State.wake
  split
  · next addr hplace => exact absurd hplace (h addr)
  · rfl

theorem wake_parent : (s.wake q).parent = s.parent := by
  unfold State.wake
  split <;> rfl

theorem wake_waitLock : (s.wake q).waitLock = s.waitLock := by
  unfold State.wake
  split <;> rfl

theorem wake_xstate : (s.wake q).xstate = s.xstate := by
  unfold State.wake
  split <;> rfl

theorem wake_initproc : (s.wake q).initproc = s.initproc := by
  unfold State.wake
  split <;> rfl

/-- What `wakeup` does to the state of a process: one that sleeps may run. -/
theorem wake_state (h : Inv s) (p : Nat) : (s.wake q).state p = s.state p ∨
    p = q ∧ s.state p = .sleeping ∧ (s.wake q).state p = .runnable := by
  by_cases hq : ∃ addr, s.place q = .asleep addr
  · obtain ⟨addr, hq⟩ := hq
    rw [wake_asleep hq]
    by_cases hp : p = q
    · subst hp
      have hgood := h.good_at hq
      exact .inr ⟨rfl, hgood.1, Function.update_self ..⟩
    · exact .inl (Function.update_of_ne hp ..)
  · rw [wake_of_not (not_exists.mp hq)]
    exact .inl rfl

/-- Nobody sleeps after `wakeup`. -/
theorem wake_ne_sleeping (h : Inv s) : (s.wake q).state q ≠ .sleeping := by
  by_cases hq : s.state q = .sleeping
  · obtain ⟨addr, hplace⟩ := h.asleep hq
    rw [wake_asleep hplace]
    show Function.update _ _ _ _ ≠ _
    rw [Function.update_self]
    decide
  · rcases wake_state h (q := q) q with heq | ⟨-, hs, -⟩
    · rwa [heq]
    · exact absurd hs hq

theorem wake_place_of_ne (hp : p ≠ q) : (s.wake q).place p = s.place p := by
  unfold State.wake
  split
  · exact Function.update_of_ne hp ..
  · rfl

/-- **`wakeup`** of one process keeps the invariant. -/
theorem Inv.wake (h : Inv s) (q : Nat) : Inv (s.wake q) := by
  by_cases hq : ∃ addr, s.place q = .asleep addr
  swap
  · rw [wake_of_not (not_exists.mp hq)]
    exact h
  obtain ⟨addr, hq⟩ := hq
  -- Only the state of this slot and its place change, and both are known.
  have hsleep : s.state q = .sleeping := by
    have hgood := h.good_at hq
    exact hgood.1
  have hstate : ∀ p, p ≠ q → (s.wake q).state p = s.state p := fun p hp => by
    rw [wake_asleep hq]
    exact Function.update_of_ne hp ..
  have hself : (s.wake q).state q = .runnable := by
    rw [wake_asleep hq]
    exact Function.update_self ..
  have hplace : (s.wake q).place q = .waiting addr := by
    rw [wake_asleep hq]
    exact Function.update_self ..
  -- nobody dies of a wakeup
  have halive : ∀ p, s.Alive p → (s.wake q).Alive p := by
    intro p hp
    by_cases hpq : p = q
    · rw [hpq]
      exact .inl hself
    · unfold State.Alive
      rwa [hstate p hpq]
  refine ⟨fun p => ?_, fun p hp => ?_, fun a b c ha hb => ?_, fun c p hp => ?_, fun c hc hac => ?_,
    fun c hc => ?_, fun c hc => ?_, ?_⟩
  · by_cases hp : p = q
    · subst hp
      rw [hplace]
      exact hself
    · rw [wake_place_of_ne hp]
      refine (h.good p).frame (hstate p hp) (congrFun wake_xstate p) wake_initproc
        (fun _ => wake_waitLock)
        (fun r hr => ?_) (fun _ _ => by rw [wake_parent]) (fun _ c _ hz => ?_) fun _ r hr hs => ?_
      · have hused := ((h.good p).makes hr).2
        have hne : r ≠ q := fun heq => by rw [heq, hsleep] at hused; cases hused
        rw [hstate r hne, wake_parent]
        exact ⟨rfl, rfl⟩
      · have hne : c ≠ q := fun heq => by rw [heq, hself] at hz; cases hz
        rwa [hstate c hne] at hz
      · have hne : r ≠ q := fun heq => by rw [heq, hself] at hs; cases hs
        rw [wake_parent] at hr
        rw [hstate r hne] at hs
        exact ⟨hr, hs⟩
  · rw [wake_waitLock] at hp
    have hholds := h.lock p hp
    have hne : p ≠ q := fun heq => by rw [heq, hq] at hholds; cases hholds
    rwa [wake_place_of_ne hne]
  -- a process in `kwait` makes no child, so the makers are the old ones
  · have hold : ∀ a, ((s.wake q).place a).makes = some c → (s.place a).makes = some c := by
      intro a ha
      by_cases haq : a = q
      · rw [haq, hplace] at ha
        cases ha
      · rwa [wake_place_of_ne haq] at ha
    exact h.maker a b c (hold a ha) (hold b hb)
  · rw [wake_parent] at hp
    exact halive p (h.alive c p hp)
  · rw [wake_initproc] at hc
    rw [wake_parent]
    refine h.parent c hc ?_
    rcases wake_state h (q := q) c with heq | ⟨-, hs, -⟩
    · unfold State.Alive at hac
      rwa [heq] at hac
    · exact .inl (.inr hs)
  · have hne : c ≠ q := fun heq => by rw [heq, hself] at hc; cases hc
    rw [hstate c hne] at hc
    rw [wake_parent]
    exact h.unused c hc
  · have hunused := h.bound c hc
    have hne : c ≠ q := fun heq => by rw [heq, hsleep] at hunused; cases hunused
    rwa [hstate c hne]
  · rw [wake_initproc]
    exact halive _ h.init

/-! ## `kfork` -/

theorem Inv.fork (h : Inv s) (hrun : s.state p = .runnable) (hplace : s.place p = .user)
    (hbound : q < nproc)
    (hunused : s.state q = .unused) : Inv ((s.alloc q).goto p (.forked q)) := by
  -- The slot was free, the caller runs: every clause below splits on these two.
  have hpq : p ≠ q := fun heq => by rw [heq, hunused] at hrun; cases hrun
  have hstate : ∀ r, r ≠ q → ((s.alloc q).goto p (.forked q)).state r = s.state r := fun r hr =>
    Function.update_of_ne hr ..
  have hself : ((s.alloc q).goto p (.forked q)).state q = .used := Function.update_self ..
  have hother : ∀ r, r ≠ p → ((s.alloc q).goto p (.forked q)).place r = s.place r := fun r hr =>
    Function.update_of_ne hr ..
  have hown : ((s.alloc q).goto p (.forked q)).place p = .forked q := Function.update_self ..
  have halive : ∀ r, ((s.alloc q).goto p (.forked q)).Alive r ↔ s.Alive r := by
    intro r
    by_cases hr : r = q
    · unfold State.Alive
      rw [hr, hself, hunused]
      simp
    · unfold State.Alive
      rw [hstate r hr]
  refine ⟨fun r => ?_, fun r hr => ?_, fun a b c ha hb => ?_, fun c r hr => ?_, fun c hc hac => ?_,
    fun c hc => ?_, fun c hc => ?_, (halive _).mpr h.init⟩
  · by_cases hrp : r = p
    · rw [hrp, hown]
      exact ⟨(hstate p hpq).trans hrun, hself, h.unused q hunused⟩
    rw [hother r hrp]
    by_cases hrq : r = q
    · rw [hrq, h.user (.inl hunused)]
      exact user_good hself (by decide)
    · refine (h.good r).frame (hstate r hrq) rfl rfl (fun _ => rfl) (fun x hx => ?_)
        (fun _ _ => .rfl) (fun _ c _ hz => ?_) fun _ x hx hs => ?_
      · have hused := ((h.good r).makes hx).2
        have hne : x ≠ q := fun heq => by rw [heq, hunused] at hused; cases hused
        exact ⟨hstate x hne, rfl⟩
      · have hne : c ≠ q := fun heq => by rw [heq, hself] at hz; cases hz
        rwa [hstate c hne] at hz
      · have hne : x ≠ q := fun heq => by rw [heq, hself] at hs; cases hs
        rw [hstate x hne] at hs
        exact ⟨hx, hs⟩
  · have hholds := h.lock r hr
    have hne : r ≠ p := fun heq => by rw [heq, hplace] at hholds; cases hholds
    rwa [hother r hne]
  -- The new child has one maker, and nobody else was making one in a free slot.
  · have hnew : ∀ a, (((s.alloc q).goto p (.forked q)).place a).makes = some c →
        a = p ∧ c = q ∨ (s.place a).makes = some c := by
      intro a ha
      by_cases hap : a = p
      · rw [hap, hown] at ha
        cases ha
        exact .inl ⟨hap, rfl⟩
      · rw [hother a hap] at ha
        exact .inr ha
    have hold : ∀ a, (s.place a).makes = some c → c ≠ q := fun a ha heq => by
      have hused := ((h.good a).makes ha).2
      rw [heq, hunused] at hused
      cases hused
    rcases hnew a ha with ⟨hap, hcq⟩ | ha' <;> rcases hnew b hb with ⟨hbp, hcq'⟩ | hb'
    · exact hap.trans hbp.symm
    · exact absurd hcq (hold b hb')
    · exact absurd hcq' (hold a ha')
    · exact h.maker a b c ha' hb'
  · exact (halive r).mpr (h.alive c r hr)
  -- the child itself is not alive before its first step
  · refine h.parent c hc ?_
    by_cases hcq : c = q
    · rw [hcq] at hac
      rcases hac with hac | hz
      · exact absurd ((halive q).mp hac) (by unfold State.Alive; rw [hunused]; simp)
      · cases hself.symm.trans hz
    · rw [halive, hstate c hcq] at hac
      exact hac
  · have hne : c ≠ q := fun heq => by rw [heq, hself] at hc; cases hc
    rw [hstate c hne] at hc
    exact h.unused c hc
  · rw [hstate c (by omega)]
    exact h.bound c hc

theorem Inv.adopt (h : Inv s) (hplace : s.place p = .forked q) :
    Inv { s.goto p (.adopted q) with parent := Function.update s.parent q (some p) } := by
  obtain ⟨hrun, hused, hnone⟩ := h.good_at hplace
  have hpq : p ≠ q := fun heq => by rw [heq, hused] at hrun; cases hrun
  have hself : (Function.update s.parent q (some p)) q = some p := Function.update_self ..
  have hparent : ∀ x, x ≠ q → (Function.update s.parent q (some p)) x = s.parent x := fun x hx =>
    Function.update_of_ne hx ..
  refine h.act (q := q) rfl (fun _ _ => rfl) hparent rfl ⟨hrun, hused, hself⟩ (fun r hrp => ?_)
    (.inl rfl)
    (fun hlock => ?_) (fun x hx => ?_) (fun c hc => ?_) (fun r hrq hr => ?_) (fun _ _ hn => ?_)
    (fun hun => ?_) (fun hge => ?_) fun hroot => ?_
  · by_cases hrq : r = q
    · rw [hrq, h.user (.inr hused)]
      exact user_good (x := .used) hused (by decide)
    · refine h.other hrq (fun _ _ => rfl) rfl hparent rfl (fun _ => rfl) (fun hm => ?_)
        (fun _ => ?_) (fun _ _ hz => hz) fun _ hs => hs
      · exact hrp (h.maker r p q hm (by rw [hplace]; rfl))
      · rw [hnone]
        show Function.update _ _ _ _ = _ ↔ _
        rw [hself]
        exact ⟨fun heq => absurd (Option.some.inj heq).symm hrp, fun hn => by cases hn⟩
  · exact absurd hlock (h.not_lock hplace rfl)
  · rw [hplace]
    exact hx
  · change (Function.update s.parent q (some p)) c = some q at hc
    by_cases hcq : c = q
    · rw [hcq, hself] at hc
      exact absurd (Option.some.inj hc) hpq
    · rw [hparent c hcq] at hc
      exact h.alive c q hc
  · change (Function.update s.parent q (some p)) q = some r at hr
    rw [hself] at hr
    rw [← Option.some.inj hr]
    exact .inl hrun
  · cases hself.symm.trans hn
  · cases hused.symm.trans hun
  · exact h.bound q hge
  · rw [hroot]
    exact h.init

theorem Inv.start (h : Inv s) (hplace : s.place p = .adopted q) :
    Inv { s.goto p .user with state := Function.update s.state q .runnable } := by
  obtain ⟨hrun, hused, hmother⟩ := h.good_at hplace
  have hpq : p ≠ q := fun heq => by rw [heq, hused] at hrun; cases hrun
  have hself : (Function.update s.state q .runnable) q = .runnable := Function.update_self ..
  have hstate : ∀ x, x ≠ q → (Function.update s.state q .runnable) x = s.state x := fun x hx =>
    Function.update_of_ne hx ..
  refine h.act (q := q) rfl hstate (fun _ _ => rfl) rfl (user_good ((hstate p hpq).trans hrun)
    (by decide))
    (fun r hrp => ?_) (.inl rfl) (fun hlock => ?_) (makes_of_none rfl) (fun _ _ => .inl hself)
    (fun r hrq hr => h.alive_of_ne hrq hstate hr) (fun _ _ hn => ?_) (fun hun => ?_) (fun hge => ?_)
    fun _ => .inl hself
  · by_cases hrq : r = q
    · rw [hrq, h.user (.inr hused)]
      exact user_good hself (by decide)
    · refine h.other hrq hstate rfl (fun _ _ => rfl) rfl (fun _ => rfl) (fun hm => ?_)
        (fun _ => .rfl) (fun _ _ hz => ?_) fun _ hs => ?_
      · exact hrp (h.maker r p q hm (by rw [hplace]; rfl))
      · cases hself.symm.trans hz
      · cases hself.symm.trans hs
  · exact absurd hlock (h.not_lock hplace rfl)
  · cases hmother.symm.trans hn
  · cases hself.symm.trans hun
  · cases hused.symm.trans (h.bound q hge)

/-! ## `freeproc` -/

/-- **A slot is freed**, and the process that frees it returns. -/
theorem Inv.free_slot (h : Inv s) {l : Option Nat} (hpq : p ≠ q) (hp : s.state p = .runnable)
    (hq : ¬ s.Alive q) (hholds : ∀ r, r ≠ p → (s.place r).holds = true → l = s.waitLock)
    (hlock : ∀ r, l = some r → r ≠ p ∧ s.waitLock = some r)
    (hmakes : ∀ r, r ≠ p → (s.place r).makes ≠ some q)
    (hmother : ∀ r, s.parent q = some r → r ≠ p → (s.place r).watches = false) :
    Inv { (s.freeproc q).goto p .user with waitLock := l } := by
  have hself : (s.freeproc q).state q = .unused := Function.update_self ..
  have hnone : (s.freeproc q).parent q = none := Function.update_self ..
  have hstate : ∀ x, x ≠ q → (s.freeproc q).state x = s.state x := fun x hx =>
    Function.update_of_ne hx ..
  have hparent : ∀ x, x ≠ q → (s.freeproc q).parent x = s.parent x := fun x hx =>
    Function.update_of_ne hx ..
  have hplace : ∀ x, x ≠ p → x ≠ q → ((s.freeproc q).goto p .user).place x = s.place x :=
    fun x hxp hxq =>
    (goto_place_of_ne hxp).trans (Function.update_of_ne hxq ..)
  have huser : ∀ x, x = p ∨ x = q → ((s.freeproc q).goto p .user).place x = .user := by
    rintro x (rfl | rfl)
    · exact goto_place_self
    · exact (goto_place_of_ne hpq.symm).trans (Function.update_self ..)
  -- The freed slot and its parent are the two that move; every clause is about them or about
  -- another process.
  have hcases : ∀ x, (x = p ∨ x = q) ∨ x ≠ p ∧ x ≠ q := fun x => by
    by_cases hxp : x = p
    · exact .inl (.inl hxp)
    · by_cases hxq : x = q
      · exact .inl (.inr hxq)
      · exact .inr ⟨hxp, hxq⟩
  refine h.change (q := q) hstate hparent rfl (fun r => ?_) (fun r hr => ?_) (fun r x hx => ?_)
    (fun c hc => ?_)
    (fun r _ hr => by cases hnone.symm.trans hr) (fun _ hac => ?_) (fun _ => hnone) (fun _ => hself)
    fun hroot => ?_
  · show Place.Good _ r (((s.freeproc q).goto p .user).place r)
    rcases hcases r with hr | ⟨hrp, hrq⟩
    · rw [huser r hr]
      rcases hr with rfl | rfl
      · exact user_good ((hstate r hpq).trans hp) (by decide)
      · exact user_good hself (by decide)
    · rw [hplace r hrp hrq]
      refine h.other hrq hstate (Function.update_of_ne hrq ..) hparent rfl (hholds r hrp)
        (hmakes r hrp) (fun hw => ?_) (fun _ _ hz => ?_) fun _ hs => ?_
      · refine iff_of_false (fun hc => ?_) fun hc => ?_
        · cases hnone.symm.trans hc
        · rw [hmother r hc hrp] at hw
          cases hw
      · cases hself.symm.trans hz
      · cases hself.symm.trans hs
  -- whoever holds the lock runs, so it is not the freed slot
  · obtain ⟨hrp, hr⟩ := hlock r hr
    have hholds := h.lock r hr
    have hrq : r ≠ q := fun heq => hq (heq ▸ .inl ((h.good r).runnable hholds))
    show (((s.freeproc q).goto p .user).place r).holds = true
    rwa [hplace r hrp hrq]
  · rcases hcases r with hr | ⟨hrp, hrq⟩
    · change (((s.freeproc q).goto p .user).place r).makes = _ at hx
      rw [huser r hr] at hx
      cases hx
    · change (((s.freeproc q).goto p .user).place r).makes = _ at hx
      rwa [hplace r hrp hrq] at hx
  -- a child of the freed slot would have a dead parent
  · by_cases hcq : c = q
    · rw [hcq] at hc
      cases hnone.symm.trans hc
    · exact absurd (h.alive c q ((hparent c hcq).symm.trans hc)) hq
  · rcases hac with (hac | hac) | hac <;> cases hself.symm.trans hac
  · exact absurd (hroot ▸ h.init) hq

theorem Inv.forkFail (h : Inv s) (hplace : s.place p = .forked q) :
    Inv ((s.freeproc q).goto p .user) := by
  obtain ⟨hrun, hused, hnone⟩ := h.good_at hplace
  have hpq : p ≠ q := fun heq => by rw [heq, hused] at hrun; cases hrun
  have hdead : ¬ s.Alive q := by
    rintro (hal | hal) <;> cases hused.symm.trans hal
  refine h.free_slot (l := s.waitLock) hpq hrun hdead (fun _ _ _ => rfl)
    (fun r hr => ⟨fun heq => ?_, hr⟩) (fun r hrp hm => ?_) fun r hr => ?_
  · have hholds := h.lock r hr
    rw [heq, hplace] at hholds
    cases hholds
  · exact hrp (h.maker r p q hm (by rw [hplace]; rfl))
  · cases hnone.symm.trans hr

/-! ## `kexit` -/

/-- The children of a process that is not among the slots. -/
theorem Inv.child_lt (h : Inv s) {c : Nat} (hc : s.parent c = some p) : c < nproc := by
  by_contra hge
  cases (h.unused c (h.bound c (Nat.le_of_not_lt hge))).symm.trans hc

theorem Place.Good.makes_parent (h : place.Good s p) (hmakes : place.makes = some q) :
    s.parent q = none ∨ s.parent q = some p := by
  cases place with
  | forked q' =>
    cases hmakes
    exact .inl h.2.2
  | adopted q' =>
    cases hmakes
    exact .inr h.2.2
  | _ => cases hmakes

/-- A child is given to the first process, which does not sleep. -/
theorem Inv.give (h : Inv s) {status : Int} (hplace : s.place p = .reparenting i status)
    (hchild : s.parent i = some p) (hawake : s.state s.initproc ≠ .sleeping) :
    Inv { s.goto p (.reparenting (i + 1) status) with parent := Function.update s.parent i (some
      s.initproc) } := by
  obtain ⟨hrun, hinit, hlock, hdone⟩ := h.good_at hplace
  have hpholds : (s.place p).holds = true := by rw [hplace]; rfl
  have hself : (Function.update s.parent i (some s.initproc)) i = some s.initproc :=
    Function.update_self ..
  have hparent : ∀ x, x ≠ i → (Function.update s.parent i (some s.initproc)) x = s.parent x :=
    fun x hx =>
    Function.update_of_ne hx ..
  refine h.act (q := i) rfl (fun _ _ => rfl) hparent rfl ⟨hrun, hinit, hlock, fun c hc hp => ?_⟩
    (fun r hrp => ?_)
    (.inl rfl) (fun _ => rfl) (makes_of_none rfl) (fun c hc => ?_) (fun r _ hr => ?_)
    (fun _ _ hn => ?_) (fun hun => ?_) (fun hge => h.bound i hge) fun hroot => ?_
  · change (Function.update s.parent i (some s.initproc)) c = some p at hp
    by_cases hci : c = i
    · rw [hci, hself] at hp
      exact hinit (Option.some.inj hp).symm
    · rw [hparent c hci] at hp
      exact hdone c (by omega) hp
  · refine (h.good r).frame rfl rfl rfl (fun _ => rfl) (fun x hx => ⟨rfl, hparent x fun hxi => ?_⟩)
      (fun hw c => ?_) (fun _ _ _ hz => hz) fun hholds => ?_
    · rw [hxi] at hx
      rcases (h.good r).makes_parent hx with hn | hs
      · cases hn.symm.trans hchild
      · exact hrp (Option.some.inj (hs.symm.trans hchild))
    · show (Function.update s.parent i (some s.initproc)) c = some r ↔ _
      by_cases hci : c = i
      · rw [hci, hself, hchild]
        refine iff_of_false (fun heq => ?_) fun heq => hrp (Option.some.inj heq).symm
        -- without `wait_lock`, only a process that sleeps watches its children, and the first
        -- process does not sleep
        obtain ⟨addr, hasleep⟩ := Place.watches_of_holds (h.holds hpholds hrp) hw
        have hr := h.good r
        rw [hasleep] at hr
        rw [Option.some.inj heq] at hawake
        exact hawake hr.1
      · rw [hparent c hci]
    · rw [h.holds hpholds hrp] at hholds
      cases hholds
  · change (Function.update s.parent i (some s.initproc)) c = some i at hc
    by_cases hci : c = i
    · rw [hci, hself] at hc
      rw [← Option.some.inj hc]
      exact h.init
    · rw [hparent c hci] at hc
      exact h.alive c i hc
  · change (Function.update s.parent i (some s.initproc)) i = some r at hr
    rw [hself] at hr
    rw [← Option.some.inj hr]
    exact h.init
  · cases hself.symm.trans hn
  · cases (h.unused i hun).symm.trans hchild
  · rw [hroot]
    exact h.init

theorem adoptOne_eq (hchild : s.parent i = some p) :
    s.adoptOne p i =
      { s.wake s.initproc with parent := Function.update (s.wake s.initproc).parent i (some
        s.initproc) } := by
  unfold State.adoptOne
  rw [if_pos hchild]
  by_cases hinit : ∃ addr, s.place s.initproc = .asleep addr
  · obtain ⟨addr, hinit⟩ := hinit
    rw [wake_asleep hinit, wake_asleep (by exact hinit)]
    rfl
  · rw [wake_of_not (not_exists.mp hinit), wake_of_not (by exact not_exists.mp hinit)]

/-- **A round of `reparent`** keeps the invariant. -/
theorem Inv.adoptOne (h : Inv s) {status : Int} (hplace : s.place p = .reparenting i status) :
    Inv ((s.adoptOne p i).goto p (.reparenting (i + 1) status)) := by
  by_cases hchild : s.parent i = some p
  swap
  · obtain ⟨hrun, hinit, hlock, hdone⟩ := h.good_at hplace
    unfold State.adoptOne
    rw [if_neg hchild]
    refine h.move (l := s.waitLock) ⟨hrun, hinit, hlock, fun c hc hp => ?_⟩ (fun _ => rfl)
      (fun _ _ _ => rfl) (fun _ _ hq => hq) (makes_of_none rfl)
    rcases Nat.lt_succ_iff_lt_or_eq.mp hc with hc | rfl
    · exact hdone c hc hp
    · exact hchild hp
  -- the order of the two assignments does not matter, so the first process is awake
  -- when it gets the child
  rw [adoptOne_eq hchild]
  have hne : p ≠ s.initproc := by
    have hgood := h.good_at hplace
    exact hgood.2.1
  have hw := h.wake s.initproc
  rw [← wake_place_of_ne (s := s) hne] at hplace
  rw [← wake_parent (s := s) (q := s.initproc)] at hchild
  have hinit : (s.wake s.initproc).initproc = s.initproc := wake_initproc
  have hawake : (s.wake s.initproc).state (s.wake s.initproc).initproc ≠ .sleeping := by
    rw [hinit]
    exact wake_ne_sleeping h
  have hgive := hw.give hplace hchild hawake
  rw [hinit] at hgive
  exact hgive

theorem Inv.reparented (h : Inv s) {status : Int} (hplace : s.place p = .reparenting i status)
    (hi : nproc ≤ i) : Inv (s.goto p (.reparented status)) := by
  obtain ⟨hrun, hinit, hlock, hdone⟩ := h.good_at hplace
  exact h.move (l := s.waitLock)
    ⟨hrun, hinit, hlock, fun c hc => hdone c (Nat.lt_of_lt_of_le (h.child_lt hc) hi) hc⟩
    (fun _ => rfl) (fun _ _ _ => rfl) (fun _ _ hq => hq) (makes_of_none rfl)

theorem Inv.wakeParent (h : Inv s) {status : Int} (hplace : s.place p = .reparented status) :
    Inv ((s.wakeParent p).goto p (.woken status)) := by
  obtain ⟨hrun, hinit, hlock, hdone⟩ := h.good_at hplace
  unfold State.wakeParent
  split
  · next hnone =>
    exact h.move (l := s.waitLock) ⟨hrun, hinit, hlock, hdone,
      fun q hq => by cases hnone.symm.trans hq⟩
      (fun _ => rfl) (fun _ _ _ => rfl) (fun _ _ hq => hq) (makes_of_none rfl)
  · next q hq =>
    have hrun' : (s.wake q).state p = .runnable := by
      rcases wake_state h (q := q) p with heq | ⟨-, hsleep, -⟩
      · exact heq.trans hrun
      · cases hrun.symm.trans hsleep
    refine (h.wake q).move (l := (s.wake q).waitLock) ⟨hrun', ?_, ?_, fun c hc => ?_,
      fun r hr => ?_⟩ (fun _ => rfl) (fun _ _ _ => rfl) (fun _ _ hq => hq) (makes_of_none rfl)
    · exact fun heq => hinit (heq.trans wake_initproc)
    · exact wake_waitLock.trans hlock
    · exact hdone c ((congrFun wake_parent c).symm.trans hc)
    · have hr := (congrFun wake_parent p).symm.trans hr
      rw [← Option.some.inj (hq.symm.trans hr)]
      exact wake_ne_sleeping h

/-- `p->state = ZOMBIE; release(&wait_lock)`. -/
theorem Inv.die (h : Inv s) {status : Int} (hplace : s.place p = .woken status) :
    Inv { s.goto p (.exited status) with
      state := Function.update s.state p .zombie
      xstate := Function.update s.xstate p status
      waitLock := none } := by
  obtain ⟨hrun, hinit, hlock, hdone, hmother⟩ := h.good_at hplace
  have hpholds : (s.place p).holds = true := by rw [hplace]; rfl
  have hself : (Function.update s.state p .zombie) p = .zombie := Function.update_self ..
  have hstate : ∀ x, x ≠ p → (Function.update s.state p .zombie) x = s.state x := fun x hx =>
    Function.update_of_ne hx ..
  refine h.act (p := p) (q := p) rfl hstate (fun _ _ => rfl) rfl
    ⟨hself, hinit, Function.update_self ..⟩ (fun r hrp => ?_)
    (.inr rfl) (fun hn => by cases hn) (makes_of_none rfl) (fun c hc => absurd hc (hdone c))
    (fun r hrp hr => h.alive_of_ne hrp hstate hr) (fun hne _ => h.parent p hne (.inl (.inl hrun)))
    (fun hun => ?_) (fun hge => ?_) fun hroot => absurd hroot hinit
  · refine h.other hrp hstate (Function.update_of_ne hrp ..) (fun _ _ => rfl) rfl (fun hholds => ?_)
      (fun hm => ?_) (fun _ => .rfl) (fun hw hr _ => ?_) fun _ hs => ?_
    · rw [h.holds hpholds hrp] at hholds
      cases hholds
    · cases ((h.good r).makes hm).2.symm.trans hrun
    · -- the parent would have to sleep, and it has been woken
      obtain ⟨addr, hasleep⟩ := Place.watches_of_holds (h.holds hpholds hrp) hw
      have hgood := h.good_at hasleep
      exact absurd hgood.1 (hmother r hr)
    · cases hself.symm.trans hs
  · cases hself.symm.trans hun
  · cases hrun.symm.trans (h.bound p hge)

/-! ## `kwait` -/

/-- What `kwait` returns is no part of the invariant. -/
theorem Inv.give_result (h : Inv s) (result : Nat → Option (Nat × Option Int)) :
    Inv { s with result := result } :=
  ⟨h.good, h.lock, h.maker, h.alive, h.parent, h.unused, h.bound, h.init⟩

theorem Inv.finish (h : Inv s) (hpholds : (s.place p).holds = true) : Inv (s.finish p none) := by
  have hrun := (h.good p).runnable hpholds
  have hmove : Inv { s.goto p .user with waitLock := none } := by
    refine h.move (user_good hrun (by decide)) (fun hn => by cases hn) (fun r hrp hholds => ?_)
      (fun _ _ hq => by cases hq) (makes_of_none rfl)
    rw [h.holds hpholds hrp] at hholds
    cases hholds
  exact hmove.give_result _

/-- `sleep(p, &wait_lock)`. -/
theorem Inv.sleep (h : Inv s) {addr : Nat} (hplace : s.place p = .resting addr) :
    Inv { s.goto p (.asleep addr) with
      state := Function.update s.state p .sleeping
      waitLock := none } := by
  obtain ⟨hrun, hlock, hkids, hdone⟩ := h.good_at hplace
  have hpholds : (s.place p).holds = true := by rw [hplace]; rfl
  have hself : (Function.update s.state p .sleeping) p = .sleeping := Function.update_self ..
  have hstate : ∀ x, x ≠ p → (Function.update s.state p .sleeping) x = s.state x := fun x hx =>
    Function.update_of_ne hx ..
  refine h.act (p := p) (q := p) rfl hstate (fun _ _ => rfl) rfl
    ⟨hself, hkids, fun c hc hz => ?_⟩ (fun r hrp => ?_) (.inr rfl) (fun hn => by cases hn)
    (makes_of_none rfl) (fun _ _ => .inr hself) (fun r hrp hr => h.alive_of_ne hrp hstate hr)
    (fun hne _ => h.parent p hne (.inl (.inl hrun))) (fun hun => ?_) (fun hge => ?_) fun _ =>
    .inr hself
  · change (Function.update s.state p .sleeping) c = _ at hz
    by_cases hcp : c = p
    · rw [hcp, hself] at hz
      cases hz
    · rw [hstate c hcp] at hz
      exact hdone c hc hz
  · have hnot := h.holds hpholds hrp
    refine h.other hrp hstate rfl (fun _ _ => rfl) rfl (fun hholds => ?_) (fun hm => ?_)
      (fun _ => .rfl) (fun _ _ hz => ?_) fun hholds _ => ?_
    · rw [hnot] at hholds
      cases hholds
    · cases ((h.good r).makes hm).2.symm.trans hrun
    · cases hself.symm.trans hz
    · rw [hnot] at hholds
      cases hholds
  · cases hself.symm.trans hun
  · cases hrun.symm.trans (h.bound p hge)

/-- The process frees the slot of a child. -/
theorem Inv.reap (h : Inv s) (hpholds : (s.place p).holds = true) (hchild : s.parent q = some p)
    (hz : s.state q = .zombie) (result : Option (Nat × Option Int)) :
    Inv ((s.freeproc q).finish p result) := by
  have hrun := (h.good p).runnable hpholds
  have hpq : p ≠ q := fun heq => by rw [heq, hz] at hrun; cases hrun
  have hdead : ¬ s.Alive q := by
    rintro (hal | hal) <;> cases hz.symm.trans hal
  refine (h.free_slot (l := none) hpq hrun hdead (fun r hrp hholds => ?_) (fun _ hr => by cases hr)
    (fun r _ hm => ?_) fun r hr hrp => ?_).give_result _
  · rw [h.holds hpholds hrp] at hholds
    cases hholds
  · cases ((h.good r).makes hm).2.symm.trans hz
  · exact absurd (Option.some.inj (hchild.symm.trans hr)).symm hrp

/-- What a round of the loop of `kwait` can do. -/
theorem scan_cases {addr : Nat} {havekids copied : Bool}
    (hscan : s.scan p addr i havekids copied = some s') :
    (s.parent i = some p ∧ (s.place i).onStack = false ∧ s.state i = .zombie ∧
      s' = (s.freeproc i).finish p (s.found i addr)) ∨
    s' = s.finish p none ∨
    (s.parent i = some p ∧ s.state i ≠ .zombie ∧ s' = s.goto p (.scanning addr (i + 1) true)) ∨
    (s.parent i ≠ some p ∧ s' = s.goto p (.scanning addr (i + 1) havekids)) ∨
    (nproc ≤ i ∧ havekids = true ∧ s' = s.goto p (.resting addr)) := by
  unfold State.scan at hscan
  split_ifs at hscan with hi hchild hexited hz hcopied hdone
  · exact .inr (.inl (Option.some.inj hscan).symm)
  · exact .inl ⟨hchild, by simpa using hexited, hz, (Option.some.inj hscan).symm⟩
  · exact .inr (.inr (.inl ⟨hchild, hz, (Option.some.inj hscan).symm⟩))
  · exact .inr (.inr (.inr (.inl ⟨hchild, (Option.some.inj hscan).symm⟩)))
  · exact .inr (.inl (Option.some.inj hscan).symm)
  · rw [not_or] at hdone
    exact .inr (.inr (.inr (.inr ⟨Nat.le_of_not_lt
      hi, by simpa using hdone.1, (Option.some.inj hscan).symm⟩)))

theorem Inv.scan (h : Inv s) {addr : Nat} {havekids copied : Bool}
    (hplace : s.place p = .scanning addr i havekids)
    (hscan : s.scan p addr i havekids copied = some s') : Inv s' := by
  have hpholds : (s.place p).holds = true := by rw [hplace]; rfl
  obtain ⟨hrun, hlock, hdone, hkids, hnone⟩ := h.good_at hplace
  have hnext : ∀ k, Place.Good s p (.scanning addr (i + 1) k) →
    Inv (s.goto p (.scanning addr (i + 1) k)) :=
    fun k hk => h.move (l := s.waitLock) hk (fun _ => rfl) (fun _ _ _ => rfl) (fun _ _ hq => hq)
      (makes_of_none rfl)
  rcases scan_cases hscan with ⟨hchild, -, hz, rfl⟩ | rfl | ⟨hchild, hz, rfl⟩ | ⟨hchild,
    rfl⟩ | ⟨hi, rfl, rfl⟩
  · exact h.reap hpholds hchild hz _
  · exact h.finish hpholds
  · refine hnext true ⟨hrun, hlock, fun c hc hp => ?_, fun _ => ⟨i, hchild⟩, fun hk => by cases hk⟩
    rcases Nat.lt_succ_iff_lt_or_eq.mp hc with hc | rfl
    · exact hdone c hc hp
    · exact hz
  · refine hnext havekids ⟨hrun, hlock, fun c hc hp => ?_, hkids, fun hk c hc hp => ?_⟩ <;>
      rcases Nat.lt_succ_iff_lt_or_eq.mp hc with hc | rfl
    · exact hdone c hc hp
    · exact absurd hp hchild
    · exact hnone hk c hc hp
    · exact absurd hp hchild
  · exact h.move (l := s.waitLock)
      ⟨hrun, hlock, hkids rfl, fun c hc => hdone c (Nat.lt_of_lt_of_le (h.child_lt hc) hi) hc⟩
      (fun _ => rfl) (fun _ _ _ => rfl) (fun _ _ hq => hq) (makes_of_none rfl)

/-! ## Runs -/

theorem Boot.inv (h : Boot s) : Inv s where
  good p := by
    rw [h.place]
    refine user_good (h.state p) ?_
    split <;> decide
  lock p hp := by cases h.waitLock.symm.trans hp
  maker p _ q hp := by
    rw [h.place] at hp
    cases hp
  alive c p hp := by cases (h.parent c).symm.trans hp
  parent c hc hac := by
    have hunused : s.state c = .unused := (h.state c).trans (if_neg hc)
    rcases hac with (hac | hac) | hac <;> cases hunused.symm.trans hac
  unused c _ := h.parent c
  bound c hc := (h.state c).trans (if_neg
    fun heq => by rw [heq] at hc; exact absurd h.init (Nat.not_lt.mpr hc))
  init := .inl ((h.state s.initproc).trans (if_pos rfl))

/-- **Every step keeps the invariant.** -/
theorem Inv.step (h : Inv s) {e : Event} (hstep : Step s e s') : Inv s' := by
  unfold Step at hstep
  cases e with
  | fork p slot =>
    cases slot with
    | none =>
      simp only [exec, Option.ite_none_right_eq_some] at hstep
      exact Option.some.inj hstep.2 ▸ h
    | some q =>
      simp only [exec, Option.ite_none_right_eq_some] at hstep
      obtain ⟨⟨hrun, hplace, hbound, hunused⟩, hstep⟩ := hstep
      exact Option.some.inj hstep ▸ h.fork hrun hplace hbound hunused
  | forkFail p =>
    simp only [exec] at hstep
    split at hstep
    · next q hplace =>
      rw [← Option.some.inj hstep]
      exact h.forkFail hplace
    · cases hstep
  | adopt p =>
    simp only [exec] at hstep
    split at hstep
    · next q hplace =>
      rw [Option.ite_none_right_eq_some] at hstep
      rw [← Option.some.inj hstep.2]
      exact h.adopt hplace
    · cases hstep
  | start p =>
    simp only [exec] at hstep
    split at hstep
    · next q hplace =>
      rw [← Option.some.inj hstep]
      exact h.start hplace
    · cases hstep
  | exit p status =>
    simp only [exec, Option.ite_none_right_eq_some] at hstep
    obtain ⟨⟨hrun, hplace, hinit⟩, hstep⟩ := hstep
    rw [← Option.some.inj hstep]
    -- `kexit` starts without the lock, and nobody else's claim to it changes.
    refine h.move (l := s.waitLock) ⟨hrun, hinit⟩ (fun hlock => ?_) (fun _ _ _ => rfl)
      (fun _ _ hq => hq) (makes_of_none rfl)
    exact absurd hlock (h.not_lock hplace rfl)
  | exitLock p =>
    simp only [exec] at hstep
    split at hstep
    · next status hplace =>
      rw [Option.ite_none_right_eq_some] at hstep
      rw [← Option.some.inj hstep.2]
      have hgood := h.good_at hplace
      -- With the lock taken no child has been looked at yet, which is what the loop of `reparent`
      -- starts from.
      exact h.move (l := some p) ⟨hgood.1, hgood.2, rfl, fun c hc => absurd hc (Nat.not_lt_zero c)⟩
        (fun _ => rfl) (fun q hq hholds => by cases (h.free hstep.1 q).symm.trans hholds)
        (fun q hq heq => absurd (Option.some.inj heq).symm hq) (makes_of_none rfl)
    · cases hstep
  | reparent p =>
    simp only [exec] at hstep
    split at hstep
    · next i status hplace =>
      split at hstep
      · rw [← Option.some.inj hstep]
        exact h.adoptOne hplace
      · next hi =>
        rw [← Option.some.inj hstep]
        exact h.reparented hplace (Nat.le_of_not_lt hi)
    · cases hstep
  | wakeParent p =>
    simp only [exec] at hstep
    split at hstep
    · next status hplace =>
      rw [← Option.some.inj hstep]
      exact h.wakeParent hplace
    · cases hstep
  | zombie p =>
    simp only [exec] at hstep
    split at hstep
    · next status hplace =>
      rw [← Option.some.inj hstep]
      exact h.die hplace
    · cases hstep
  | switch p =>
    simp only [exec] at hstep
    split at hstep
    · next status hplace =>
      rw [← Option.some.inj hstep]
      have hgood := h.good_at hplace
      refine h.move (l := s.waitLock) hgood (fun hlock => ?_) (fun _ _ _ => rfl) (fun _ _ hq => hq)
        (makes_of_none rfl)
      exact absurd hlock (h.not_lock hplace rfl)
    · cases hstep
  | wait p addr =>
    simp only [exec, Option.ite_none_right_eq_some] at hstep
    obtain ⟨⟨hrun, hplace⟩, hstep⟩ := hstep
    rw [← Option.some.inj hstep]
    refine h.move (l := s.waitLock) hrun (fun hlock => ?_) (fun _ _ _ => rfl) (fun _ _ hq => hq)
      (makes_of_none rfl)
    exact absurd hlock (h.not_lock hplace rfl)
  | waitLock p =>
    simp only [exec] at hstep
    split at hstep
    · next addr hplace =>
      rw [Option.ite_none_right_eq_some] at hstep
      rw [← Option.some.inj hstep.2]
      have hgood := h.good_at hplace
      -- `kwait` starts its scan with no child seen and none ruled out.
      exact h.move (l := some p) ⟨hgood, rfl, fun c hc => absurd hc (Nat.not_lt_zero c),
        (fun hk => by cases hk),
        fun _ c hc => absurd hc (Nat.not_lt_zero c)⟩ (fun _ => rfl)
        (fun q hq hholds => by cases (h.free hstep.1 q).symm.trans hholds)
        (fun q hq heq => absurd (Option.some.inj heq).symm hq) (makes_of_none rfl)
    · cases hstep
  | scan p copied =>
    simp only [exec] at hstep
    split at hstep
    · next addr i havekids hplace => exact h.scan hplace hstep
    · cases hstep
  | sleep p =>
    simp only [exec] at hstep
    split at hstep
    · next addr hplace =>
      rw [← Option.some.inj hstep]
      exact h.sleep hplace
    · cases hstep
  | kill q =>
    simp only [exec, Option.ite_none_right_eq_some] at hstep
    rw [← Option.some.inj hstep.2]
    -- `kkill` marks first and wakes the process afterwards.
    have hkilled : Inv { s with killed := Function.update s.killed q true } :=
      ⟨h.good, h.lock, h.maker, h.alive, h.parent, h.unused, h.bound, h.init⟩
    exact hkilled.wake q

theorem wake_state_unused {c : Nat} (hc : (s.wake q).state c = .unused) : s.state c = .unused := by
  unfold State.wake at hc
  split at hc
  · change Function.update _ _ _ _ = _ at hc
    by_cases hcq : c = q
    · rw [hcq, Function.update_self] at hc
      cases hc
    · rwa [Function.update_of_ne hcq] at hc
  · exact hc

theorem update_state_unused {c : Nat} {x : ProcState} (hx : x ≠ .unused)
    (hc : Function.update s.state q x c = .unused) : s.state c = .unused := by
  by_cases hcq : c = q
  · rw [hcq, Function.update_self] at hc
    exact absurd hc hx
  · rwa [Function.update_of_ne hcq] at hc

theorem freeproc_state_unused {c : Nat} (hne : s.state c ≠ .unused)
    (hc : (s.freeproc q).state c = .unused) : c = q := by
  by_contra hcq
  exact hne ((Function.update_of_ne hcq ..).symm.trans hc)

/-- **Who frees a slot.** -/
theorem Inv.freed (h : Inv s) {e : Event} (hstep : Step s e s') {c : Nat}
    (hne : s.state c ≠ .unused)
    (hc : s'.state c = .unused) :
    (∃ p, e = .forkFail p ∧ s.place p = .forked c ∧ s.state c = .used) ∨
      ∃ p copied addr havekids status, e = .scan p copied ∧ s.place p = .scanning addr c havekids ∧
        s.parent c = some p ∧ s.place c = .gone status ∧
        s'.result p = some (s.pid c, if addr = 0 then none else some status) := by
  unfold Step at hstep
  cases e with
  | fork p slot =>
    cases slot with
    | none =>
      simp only [exec, Option.ite_none_right_eq_some] at hstep
      rw [← Option.some.inj hstep.2] at hc
      exact absurd hc hne
    | some q =>
      simp only [exec, Option.ite_none_right_eq_some] at hstep
      rw [← Option.some.inj hstep.2] at hc
      exact absurd (update_state_unused (s := s) (q := q) (x := .used) (by decide) hc) hne
  | forkFail p =>
    simp only [exec] at hstep
    split at hstep
    · next q hplace =>
      rw [← Option.some.inj hstep] at hc
      obtain rfl := freeproc_state_unused hne hc
      have hgood := h.good_at hplace
      exact .inl ⟨p, rfl, hplace, hgood.2.1⟩
    · cases hstep
  | adopt p | exitLock p | waitLock p =>
    -- only the places and the parents change
    simp only [exec] at hstep
    split at hstep
    · rw [Option.ite_none_right_eq_some] at hstep
      rw [← Option.some.inj hstep.2] at hc
      exact absurd hc hne
    · cases hstep
  | start p =>
    simp only [exec] at hstep
    split at hstep
    · rw [← Option.some.inj hstep] at hc
      exact absurd (update_state_unused (x := .runnable) (by decide) hc) hne
    · cases hstep
  | exit p _ | wait p _ =>
    simp only [exec, Option.ite_none_right_eq_some] at hstep
    rw [← Option.some.inj hstep.2] at hc
    exact absurd hc hne
  | reparent p =>
    simp only [exec] at hstep
    split at hstep
    · split at hstep
      · rw [← Option.some.inj hstep] at hc
        change (s.adoptOne p _).state c = _ at hc
        unfold State.adoptOne at hc
        split at hc
        · exact absurd (wake_state_unused hc) hne
        · exact absurd hc hne
      · rw [← Option.some.inj hstep] at hc
        exact absurd hc hne
    · cases hstep
  | wakeParent p =>
    simp only [exec] at hstep
    split at hstep
    · rw [← Option.some.inj hstep] at hc
      change (s.wakeParent p).state c = _ at hc
      unfold State.wakeParent at hc
      split at hc
      · exact absurd hc hne
      · exact absurd (wake_state_unused hc) hne
    · cases hstep
  | zombie p =>
    simp only [exec] at hstep
    split at hstep
    · rw [← Option.some.inj hstep] at hc
      exact absurd (update_state_unused (x := .zombie) (by decide) hc) hne
    · cases hstep
  | switch p =>
    simp only [exec] at hstep
    split at hstep
    · rw [← Option.some.inj hstep] at hc
      exact absurd hc hne
    · cases hstep
  | scan p copied =>
    simp only [exec] at hstep
    split at hstep
    · next addr i havekids hplace =>
      rcases scan_cases hstep with ⟨hchild, hexited, hz, rfl⟩ | rfl | ⟨-, -, rfl⟩ | ⟨-,
        rfl⟩ | ⟨-, -, rfl⟩
      · obtain rfl := freeproc_state_unused hne hc
        have hgone := (h.zombie hz).resolve_left fun heq => by rw [heq] at hexited; cases hexited
        exact .inr ⟨p, copied, addr, havekids, _, rfl, hplace, hchild, hgone,
          Function.update_self ..⟩
      · exact absurd hc hne
      · exact absurd hc hne
      · exact absurd hc hne
      · exact absurd hc hne
    · cases hstep
  | sleep p =>
    simp only [exec] at hstep
    split at hstep
    · rw [← Option.some.inj hstep] at hc
      exact absurd (update_state_unused (x := .sleeping) (by decide) hc) hne
    · cases hstep
  | kill q =>
    simp only [exec, Option.ite_none_right_eq_some] at hstep
    rw [← Option.some.inj hstep.2] at hc
    exact absurd (wake_state_unused hc) hne

theorem Inv.safe (h : Inv s) : Safe s where
  init := h.init
  parent c hc hac := by
    obtain ⟨q, hq⟩ := Option.ne_none_iff_exists'.mp (h.parent c hc hac)
    exact ⟨q, hq, h.alive c q hq⟩
  waits _ hp := h.safe_waits hp
  freed _ _ hstep _ hne hc := h.freed hstep hne hc

end

/-- **The life of a process**, in every state that is reached: the first process stays, every other
process has a parent that may still act, a parent that sleeps in `kwait` has a child to wait for and
has missed none that has exited, and a slot is freed by the `kwait` of the parent after the process
has left its stack, or by the `kfork` that fails. -/
theorem lifecycle_safe {s₀ s : State} {es : List Event} (hboot : Boot s₀)
    (hrun : Run Step s₀ es s) : Safe s :=
  (hrun.invariant (I := Inv) (fun _ _ _ h hstep => h.step hstep) hboot.inv).safe

/-- The process 0 runs. -/
def firstProcess : State where
  state p := if p = 0 then .runnable else .unused
  pid p := if p = 0 then 1 else 0
  parent _ := none
  killed _ := false
  xstate _ := 0
  place _ := .user
  initproc := 0
  nextpid := 2

theorem boot_firstProcess :
    Boot firstProcess := ⟨by decide, fun _ => rfl, fun _ => rfl, fun _ => rfl, rfl⟩

/-- The first process makes a child and waits for it; the child makes a child of its own and
exits. -/
def orphaned : List Event :=
  [[.fork 0 (some 1), .adopt 0, .start 0, .wait 0 0, .waitLock 0],
    List.replicate 65 (.scan 0 true),
    [.sleep 0, .fork 1 (some 2), .adopt 1, .start 1, .exit 1 7, .exitLock 1],
    List.replicate 65 (.reparent 1),
    [.wakeParent 1, .zombie 1, .switch 1, .waitLock 0, .scan 0 true, .scan 0 true]].flatten

/-- The grandchild is handed to the first process, which sleeps, and which then gets the status of
its own child and frees the slot. -/
theorem lifecycle_safe_orphaned : ∃ s, Run Step firstProcess orphaned s ∧
    (s.state 0, s.state 1, s.state 2, s.parent 2) = (.runnable, .unused, .runnable, some 0) ∧
    Safe s := by
  have hsome : ((Run.after exec orphaned firstProcess).map fun s => (s.state 0, s.state 1,
    s.state 2, s.parent 2)) =
      some (.runnable, .unused, .runnable, some 0) := by
    decide +kernel
  obtain ⟨s, hs, heq⟩ := Option.map_eq_some_iff.mp hsome
  have hrun : Run.Meets Step (fun _ _ => True) firstProcess ([] ++ orphaned) s :=
    Run.meets_of_after (fun s e s' h => ⟨trivial, h⟩) orphaned (.nil firstProcess) hs
  exact ⟨s, hrun.run, heq, lifecycle_safe boot_firstProcess hrun.run⟩

end Xv6.Lifecycle
