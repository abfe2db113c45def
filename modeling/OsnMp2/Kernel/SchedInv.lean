import OsnMp2.Kernel.Sched
import OsnMp2.Lib.WaitFor
import Mathlib.Data.Fintype.EquivFin

/-!
# No panic in the locks and the scheduler

The code of a thread is checked against the list of the spinlocks that it holds: locks are taken in
the order of a rank, given back by the one who holds them, and `sched` is called with `p->lock` and
no other lock. The check is made once for each piece of code. What a CPU does then keeps it, through
every switch from a process to a scheduler and on to another CPU, and no test of `acquire`,
`release`, `pop_off` and `sched` fails.

## Main definitions

* `Wakes`, `Announces`: what ends a wait is followed by `wakeup`
* `Checked`: the code keeps the discipline of the locks
* `Inv`: the invariant of the locks, the CPUs and the process table

## Main results

* `Inv.exec`: an instruction does not panic and keeps the invariant
* `Inv.step`: every step keeps the invariant
-/

set_option linter.unusedSectionVars false

namespace Xv6.Sched

variable {P L W A C σ : Type} [DecidableEq P] [DecidableEq L] [DecidableEq W] [DecidableEq C]

section

variable (K : Kernel P L W A σ) (rank : Lock P L → Nat)

/-- The code wakes the process `q` up on the channel of the condition before it gives the lock
back. -/
def Wakes (q : P) (w : W) : List (Instr P L W A) → Prop
  | [] => False
  | .wake q' w' :: k => q' = q ∧ K.chan w' = K.chan w ∨ Wakes q w k
  | .release l :: k => l ≠ .other (K.guard w) ∧ Wakes q w k
  | .await _ :: _ => False
  | .test _ :: _ => False
  | _ :: k => Wakes q w k

/-- The action may end what processes wait for on the channel. -/
def Kernel.Ends (a : A) (w : W) : Prop :=
  ∃ me d, K.cond w d = true ∧ K.cond w (K.perform a me d) = false

/-- Where an action may end what processes wait for, their lock is held, and all others are woken up
before it is given back. -/
def Announces (me : Option P) (held : List (Lock P L)) (a : A) (k : List (Instr P L W A)) : Prop :=
  ∀ w, K.Ends a w → .other (K.guard w) ∈ held ∧ ∀ q ∈ K.procs, me ≠ some q → Wakes K q w k

/-- **The discipline of the locks**, for the code of the thread `me` in the state `st` that
holds the locks `held`. -/
def Checked (me : Option P) : ProcState → List (Lock P L) → List (Instr P L W A) → Prop
  | st, held, [] => st = .running ∧ held = []
  | st, held, .acquire l :: k =>
    st = .running ∧ (∀ h ∈ held, rank h < rank l) ∧ Checked me .running (l :: held) k
  | _, _, .spin _ :: _ => False
  | st, held, .release l :: k =>
    l ∈ held ∧ (st = .running ∨ ∀ p, me = some p → l ≠ .proc p) ∧ Checked me st (held.erase l) k
  | st, held, .act a :: k => st = .running ∧ Announces K me held a k ∧ Checked me st held k
  | st, held, .await w :: k =>
    st = .running ∧ me.isSome ∧ held = [.other (K.guard w)] ∧ Checked me st held k
  | st, held, .test w :: k =>
    st = .running ∧ me.isSome ∧ held = [.other (K.guard w)] ∧ Checked me st held k
  | st, held, .setSleeping _ :: k =>
    st = .running ∧ (∃ p, me = some p ∧ .proc p ∈ held) ∧ Checked me .sleeping held k
  | st, held, .setRunnable :: k =>
    st = .running ∧ (∃ p, me = some p ∧ .proc p ∈ held) ∧ Checked me .runnable held k
  | st, held, .setZombie :: k =>
    st = .running ∧ (∃ p, me = some p ∧ .proc p ∈ held) ∧ Checked me .zombie held k
  | st, held, .sched :: k =>
    st ≠ .running ∧ (∃ p, me = some p ∧ held = [.proc p]) ∧
      (st ≠ .zombie → Checked me .running held k)
  | _, _, .restoreIntena :: _ => False
  | st, held, .clearChan :: k => st = .running ∧ me.isSome ∧ Checked me st held k
  | st, held, .wake q _ :: k => st = .running ∧ me ≠ some q ∧ .proc q ∈ held ∧ Checked me st held k
  | st, held, .kill q :: k => st = .running ∧ .proc q ∈ held ∧ Checked me st held k
  | st, held, .start q :: k => st = .running ∧ .proc q ∈ held ∧ Checked me st held k
  | st, held, .free q :: k => st = .running ∧ .proc q ∈ held ∧ Checked me st held k
  | st, held, .dispatch p :: k => st = .running ∧ me = none ∧ held = [.proc p] ∧
      Checked me st held k
  | st, held, .clearProc :: k => st = .running ∧ me = none ∧ held ≠ [] ∧ Checked me st held k
  | st, held, .intrOn :: k => st = .running ∧ held = [] ∧ Checked me st held k
  | st, held, .intrOff :: k => st = .running ∧ held = [] ∧ Checked me st held k
  | st, held, .sret :: k => st = .running ∧ held = [] ∧ Checked me st held k
  | st, held, .userret :: k => st = .running ∧ me.isSome ∧ held = [] ∧ Checked me st held k
  | _, _, .zombieExit :: _ => False

end

variable {K : Kernel P L W A σ} {rank : Lock P L → Nat} {me : Option P} {st : ProcState}
  {held : List (Lock P L)} {i : Instr P L W A} {k k' : List (Instr P L W A)} {l : Lock P L}
  {c c' : C} {p : P} {s s' : State P L W A C σ}

/-! ## Checked code -/

theorem Wakes.append {q : P} {w : W} (h : Wakes K q w k) : Wakes K q w (k ++ k') := by
  induction k with
  | nil => exact h.elim
  | cons i k ih =>
    cases i
    case wake => exact h.imp_right ih
    case release => exact ⟨h.1, ih h.2⟩
    case await => exact h
    case test => exact h
    all_goals exact ih h

/-- Code runs behind code that ends without locks. -/
theorem Checked.append (h : Checked K rank me st held k) (h' : Checked K rank me .running [] k') :
    Checked K rank me st held (k ++ k') := by
  induction k generalizing st held with
  | nil =>
    obtain ⟨rfl, rfl⟩ := h
    exact h'
  | cons i k ih =>
    cases i
    case acquire => exact ⟨h.1, h.2.1, ih h.2.2⟩
    case spin => exact h
    case release => exact ⟨h.1, h.2.1, ih h.2.2⟩
    case act =>
      exact ⟨h.1, fun w hw => ⟨(h.2.1 w hw).1, fun q hq hne => ((h.2.1 w hw).2 q hq hne).append⟩,
        ih h.2.2⟩
    case await => exact ⟨h.1, h.2.1, h.2.2.1, ih h.2.2.2⟩
    case test => exact ⟨h.1, h.2.1, h.2.2.1, ih h.2.2.2⟩
    case setSleeping => exact ⟨h.1, h.2.1, ih h.2.2⟩
    case setRunnable => exact ⟨h.1, h.2.1, ih h.2.2⟩
    case setZombie => exact ⟨h.1, h.2.1, ih h.2.2⟩
    case sched => exact ⟨h.1, h.2.1, fun hz => ih (h.2.2 hz)⟩
    case restoreIntena => exact h
    case clearChan => exact ⟨h.1, h.2.1, ih h.2.2⟩
    case wake => exact ⟨h.1, h.2.1, h.2.2.1, ih h.2.2.2⟩
    case kill => exact ⟨h.1, h.2.1, ih h.2.2⟩
    case start => exact ⟨h.1, h.2.1, ih h.2.2⟩
    case free => exact ⟨h.1, h.2.1, ih h.2.2⟩
    case dispatch => exact ⟨h.1, h.2.1, h.2.2.1, ih h.2.2.2⟩
    case clearProc => exact ⟨h.1, h.2.1, h.2.2.1, ih h.2.2.2⟩
    case intrOn => exact ⟨h.1, h.2.1, ih h.2.2⟩
    case intrOff => exact ⟨h.1, h.2.1, ih h.2.2⟩
    case sret => exact ⟨h.1, h.2.1, ih h.2.2⟩
    case userret => exact ⟨h.1, h.2.1, h.2.2.1, ih h.2.2.2⟩
    case zombieExit => exact h

/-- A thread whose state is not `RUNNING` holds the lock of its process. -/
theorem Checked.leaving (h : Checked K rank me st held k) (hst : st ≠ .running) :
    ∃ p, me = some p ∧ .proc p ∈ held := by
  induction k generalizing held with
  | nil => exact absurd h.1 hst
  | cons i k ih =>
    cases i
    case release l =>
      obtain ⟨p, hp, hmem⟩ := ih h.2.2
      exact ⟨p, hp, List.mem_of_mem_erase hmem⟩
    case sched =>
      obtain ⟨-, ⟨p, hp, rfl⟩, -⟩ := h
      exact ⟨p, hp, List.mem_singleton_self _⟩
    case spin => exact h.elim
    case restoreIntena => exact h.elim
    case zombieExit => exact h.elim
    all_goals exact absurd h.1 hst

/-- `wakeup` takes the lock of one process at a time, above those that its caller holds. -/
theorem checked_wakeup {w : W} (procs : List P) (hrank : ∀ q, ∀ h ∈ held, rank h < rank (.proc q))
    (hk : Checked K rank me .running held k) :
    Checked K rank me .running held (wakeup procs me w ++ k) := by
  unfold wakeup
  induction procs with
  | nil => exact hk
  | cons q procs ih =>
    by_cases hq : some q ≠ me
    · rw [List.filter_cons_of_pos (by simpa using hq), List.flatMap_cons, List.append_assoc]
      refine ⟨rfl, hrank q, rfl, fun hc => hq hc.symm, List.mem_cons_self, List.mem_cons_self,
        Or.inl rfl, ?_⟩
      rw [List.erase_cons_head]
      exact ih
    · rw [List.filter_cons_of_neg (by simpa using hq)]
      exact ih

/-- `wakeup` wakes every process up but the one that calls it. -/
theorem wakes_wakeup {q : P} {w w' : W} (hchan : K.chan w' = K.chan w) {procs : List P}
    (hq : q ∈ procs) (hne : me ≠ some q) : Wakes K q w (wakeup procs me w' ++ k) := by
  unfold wakeup
  induction procs with
  | nil => exact absurd hq List.not_mem_nil
  | cons p procs ih =>
    by_cases hp : some p ≠ me
    · rw [List.filter_cons_of_pos (by simpa using hp), List.flatMap_cons, List.append_assoc]
      rcases List.mem_cons.mp hq with rfl | hin
      · exact Or.inl ⟨rfl, hchan⟩
      · exact Or.inr ⟨nofun, ih hin⟩
    · rw [List.filter_cons_of_neg (by simpa using hp)]
      refine ih ((List.mem_cons.mp hq).resolve_left ?_)
      rintro rfl
      exact hp hne.symm

/-- `sleep` gives its lock back and takes it again. -/
theorem checked_sleep {w : W} {lk : L} {p : P} (hrank : rank (.other lk) < rank (.proc p))
    (hk : Checked K rank (some p) .running [.other lk] k) :
    Checked K rank (some p) .running [.other lk] (sleep p w lk ++ k) := by
  have hlk : ([.proc p, .other lk] : List (Lock P L)).erase (.other lk) = [.proc p] := by simp
  have hp : ([.proc p] : List (Lock P L)).erase (.proc p) = [] := List.erase_cons_head ..
  refine ⟨rfl, fun h hh => ?_, List.mem_cons_of_mem _ (List.mem_singleton_self _), Or.inl rfl, ?_⟩
  · rw [List.mem_singleton.mp hh]
    exact hrank
  rw [hlk]
  refine ⟨rfl, ⟨p, rfl, List.mem_singleton_self _⟩, ProcState.noConfusion, ⟨p, rfl, rfl⟩,
    fun _ => ?_⟩
  refine ⟨rfl, rfl, List.mem_singleton_self _, Or.inl rfl, ?_⟩
  rw [hp]
  exact ⟨rfl, fun h hh => absurd hh List.not_mem_nil, hk⟩

theorem checked_yield {p : P} (hk : Checked K rank (some p) .running [] k) :
    Checked K rank (some p) .running [] (yield p ++ k) := by
  have hp : ([.proc p] : List (Lock P L)).erase (.proc p) = [] := List.erase_cons_head ..
  refine ⟨rfl, fun h hh => absurd hh List.not_mem_nil, rfl, ⟨p, rfl, List.mem_singleton_self _⟩,
    ProcState.noConfusion, ⟨p, rfl, rfl⟩, fun _ => ⟨List.mem_singleton_self _, Or.inl rfl, ?_⟩⟩
  rw [hp]
  exact hk

/-- The scheduler holds the lock of one process at a time. -/
theorem checked_scheduler (procs : List P) : Checked K rank none .running [] (scheduler procs) := by
  refine ⟨rfl, rfl, rfl, rfl, ?_⟩
  induction procs with
  | nil => exact ⟨rfl, rfl⟩
  | cons p procs ih =>
    rw [List.flatMap_cons]
    refine ⟨rfl, fun h hh => absurd hh List.not_mem_nil, rfl, rfl, rfl, List.mem_singleton_self _,
      Or.inl rfl, ?_⟩
    rw [List.erase_cons_head]
    exact ih

/-! ## The invariant -/

/-- The state of the process whose thread runs on the CPU; the scheduler counts as running. -/
def State.threadState (s : State P L W A C σ) (c : C) : ProcState :=
  match (s.cpu c).cur with
  | some p => (s.proc p).state
  | none => .running

/-- How many times `push_off` is called for locks that are not taken yet. -/
def spins : List (Instr P L W A) → Nat
  | .spin _ :: _ => 1
  | _ => 0

/-- The check of code that may be in a call of `acquire` or `sched`. -/
def CheckedNow (K : Kernel P L W A σ) (rank : Lock P L → Nat) (me : Option P) (st : ProcState)
    (held : List (Lock P L)) : List (Instr P L W A) → Prop
  | .spin l :: k => Checked K rank me st held (.acquire l :: k)
  | .restoreIntena :: k => me.isSome ∧ held ≠ [] ∧ Checked K rank me st held k
  | k => Checked K rank me st held k

theorem Checked.now (h : Checked K rank me st held k) :
    spins k = 0 ∧ CheckedNow K rank me st held k := by
  cases k with
  | nil => exact ⟨rfl, h⟩
  | cons i k =>
    cases i
    case spin => exact h.elim
    case restoreIntena => exact h.elim
    all_goals exact ⟨rfl, h⟩

/-- The instructions that code is written with; the others are put in front of it while they run. -/
def Instr.Static : Instr P L W A → Prop
  | .spin _ | .restoreIntena => False
  | _ => True

theorem CheckedNow.leaving (h : CheckedNow K rank me st held k) (hst : st ≠ .running) :
    ∃ p, me = some p ∧ .proc p ∈ held := by
  cases k with
  | nil => exact Checked.leaving h hst
  | cons i k =>
    cases i
    case spin l => exact Checked.leaving h hst
    case restoreIntena => exact h.2.2.leaving hst
    all_goals exact Checked.leaving h hst

section

variable (K rank)

/-- The thread that runs on a CPU: `noff` counts the locks that the CPU holds, and the code is
checked against them. -/
def Thread (s : State P L W A C σ) (c : C) : Prop :=
  ∃ held : List (Lock P L), held.Nodup ∧ (∀ l, l ∈ held ↔ s.lock l = some c) ∧
    (s.cpu c).noff = held.length + spins (s.code c) ∧
    CheckedNow K rank (s.cpu c).cur (s.threadState c) held (s.code c)

/-- A CPU: no interrupts while locks are held; `c->proc` is the process that it runs,
until the scheduler has cleared it; a scheduler that waits for its process has the lock
of it when it goes on. -/
structure CpuOk (s : State P L W A C σ) (c : C) : Prop where
  thread : Thread K rank s c
  off : 0 < (s.cpu c).noff → (s.cpu c).sie = false
  home : ∀ p, (s.cpu c).cur = some p → (s.cpu c).proc = some p ∧
    ∃ k, (s.cpu c).code = .clearProc :: k ∧ Checked K rank none .running [.proc p] (s.cpu c).code
  idle : (s.cpu c).cur = none → (s.cpu c).proc = none ∨ ∃ k, (s.cpu c).code = .clearProc :: k

/-- A process that runs on no CPU: it can be dispatched, with its lock held. -/
structure Resting (s : State P L W A C σ) (p : P) : Prop where
  state : (s.proc p).state ≠ .running
  code : (s.proc p).state = .sleeping ∨ (s.proc p).state = .runnable →
    CheckedNow K rank (some p) .running [.proc p] (s.proc p).code ∧ spins (s.proc p).code = 0

/-- **The invariant.** -/
structure Inv (s : State P L W A C σ) : Prop where
  cpu : ∀ c, CpuOk K rank s c
  once : ∀ c c' p, (s.cpu c).cur = some p → (s.cpu c').cur = some p → c = c'
  resting : ∀ p, (∀ c, (s.cpu c).cur ≠ some p) → Resting K rank s p

end

theorem threadState_of_some (h : (s.cpu c).cur = some p) : s.threadState c = (s.proc p).state := by
  unfold State.threadState
  rw [h]

theorem threadState_of_none (h : (s.cpu c).cur = none) : s.threadState c = .running := by
  unfold State.threadState
  rw [h]

@[simp] theorem threadState_setCode : (s.setCode c k).threadState c' = s.threadState c' := by
  cases hcur : (s.cpu c').cur with
  | some p =>
    rw [threadState_of_some hcur, threadState_of_some (State.cur_setCode.trans hcur),
      State.state_setCode]
  | none => rw [threadState_of_none hcur, threadState_of_none (State.cur_setCode.trans hcur)]

/-- A process whose thread runs on a CPU and whose state is not `RUNNING` has its lock held by this
CPU. -/
theorem Inv.leaving (h : Inv K rank s) (hcur : (s.cpu c).cur = some p)
    (hst : (s.proc p).state ≠ .running) : s.lock (.proc p) = some c := by
  obtain ⟨held, -, hmem, -, hcheck⟩ := (h.cpu c).thread
  rw [threadState_of_some hcur, hcur] at hcheck
  obtain ⟨q, hq, hin⟩ := hcheck.leaving hst
  obtain rfl := Option.some.inj hq
  exact (hmem _).mp hin

/-- A process whose lock a CPU holds runs on this CPU, or it is in the state `RUNNING`, or it
rests. -/
theorem Inv.resting_of_held (h : Inv K rank s) (hlock : s.lock (.proc p) = some c)
    (hst : (s.proc p).state ≠ .running) (hcur : (s.cpu c).cur ≠ some p) :
    ∀ c', (s.cpu c').cur ≠ some p := by
  intro c' hc'
  have hheld := h.leaving hc' hst
  rw [hlock] at hheld
  obtain rfl := Option.some.inj hheld
  exact hcur hc'

/-- A process whose lock a running thread holds, and which is not in the state `RUNNING`, rests. -/
theorem Inv.resting_of_locked (h : Inv K rank s) (hrun : s.threadState c = .running)
    (hlock : s.lock (.proc p) = some c)
    (hst : (s.proc p).state ≠ .running) : ∀ c', (s.cpu c').cur ≠ some p := by
  refine h.resting_of_held hlock hst fun hcur => hst ?_
  rw [← threadState_of_some hcur]
  exact hrun

theorem code_congr (hcpu : s'.cpu c = s.cpu c)
    (hproc : ∀ p, (s.cpu c).cur = some p → (s'.proc p).code = (s.proc p).code) :
    s'.code c = s.code c := by
  cases hp : (s.cpu c).cur with
  | some p => rw [State.code_of_some hp, State.code_of_some ((congrArg Cpu.cur hcpu).trans hp),
      hproc p hp]
  | none => rw [State.code_of_none hp, State.code_of_none ((congrArg Cpu.cur hcpu).trans hp), hcpu]

theorem code_setProc {pr : Proc P L W A} (hcode : pr.code = (s.proc p).code) :
    (s.setProc p pr).code c = s.code c := by
  refine code_congr rfl fun q _ => ?_
  by_cases hq : q = p
  · rw [hq, State.proc_setProc, hcode]
  · rw [State.proc_setProc_of_ne hq]

/-- A CPU for which nothing changes. -/
theorem CpuOk.frame (h : CpuOk K rank s c) (hcpu : s'.cpu c = s.cpu c)
    (hlock : ∀ l, s'.lock l = some c ↔ s.lock l = some c)
    (hproc : ∀ p, (s.cpu c).cur = some p →
      (s'.proc p).code = (s.proc p).code ∧ (s'.proc p).state = (s.proc p).state) :
      CpuOk K rank s' c := by
  obtain ⟨⟨held, hnodup, hmem, hnoff, hcheck⟩, hoff, hhome, hidle⟩ := h
  have hsame : s'.code c = s.code c ∧ s'.threadState c = s.threadState c := by
    cases hcur : (s.cpu c).cur with
    | none =>
      have hcur' : (s'.cpu c).cur = none := by rw [hcpu, hcur]
      rw [State.code_of_none hcur, State.code_of_none hcur', threadState_of_none hcur,
        threadState_of_none hcur', hcpu]
      exact ⟨rfl, rfl⟩
    | some p =>
      have hcur' : (s'.cpu c).cur = some p := by rw [hcpu, hcur]
      rw [State.code_of_some hcur, State.code_of_some hcur', threadState_of_some hcur,
        threadState_of_some hcur']
      exact hproc p hcur
  rw [← hcpu] at hoff hhome hidle
  refine ⟨⟨held, hnodup, fun l => (hmem l).trans (hlock l).symm, ?_, ?_⟩, hoff, hhome, hidle⟩
  · rw [hsame.1, hcpu, hnoff]
  · rw [hsame.1, hsame.2, hcpu]
    exact hcheck

theorem Resting.frame (h : Resting K rank s p) (hstate : (s'.proc p).state = (s.proc p).state)
    (hcode : (s'.proc p).code = (s.proc p).code) : Resting K rank s' p := by
  obtain ⟨hrun, hchecked⟩ := h
  rw [← hstate, ← hcode] at hchecked
  exact ⟨hstate ▸ hrun, hchecked⟩

/-! ## Steps of one thread -/

/-- What a thread does changes its CPU and its process only, and only locks that are free or its
own. -/
structure Local (c : C) (s s' : State P L W A C σ) : Prop where
  cpu : ∀ c', c' ≠ c → s'.cpu c' = s.cpu c'
  cur : (s'.cpu c).cur = (s.cpu c).cur
  proc : ∀ p, (s.cpu c).cur ≠ some p → s'.proc p = s.proc p
  lock : ∀ c', c' ≠ c → ∀ l, s'.lock l = some c' ↔ s.lock l = some c'
  home : ∀ p, (s.cpu c).cur = some p → (s'.cpu c).proc = (s.cpu c).proc ∧
    (s'.cpu c).code = (s.cpu c).code

theorem Local.trans {s'' : State P L W A C σ} (h : Local c s s') (h' : Local c s' s'') :
    Local c s s'' where
  cpu c' hc' := (h'.cpu c' hc').trans (h.cpu c' hc')
  cur := h'.cur.trans h.cur
  proc p hp := (h'.proc p (by rw [h.cur]; exact hp)).trans (h.proc p hp)
  lock c' hc' l := (h'.lock c' hc' l).trans (h.lock c' hc' l)
  home p hp :=
    have hp' := h'.home p (h.cur.trans hp)
    ⟨hp'.1.trans (h.home p hp).1, hp'.2.trans (h.home p hp).2⟩

theorem Local.setCode (c : C) (s : State P L W A C σ) (k : List (Instr P L W A)) :
    Local c s (s.setCode c k) where
  cpu c' hc' := State.cpu_setCode_of_ne hc'
  cur := State.cur_setCode
  proc p hp := State.proc_setCode_of_ne hp
  lock c' _ l := by rw [State.lock_setCode]
  home p hp := by
    rw [State.cpu_setCode_of_some hp]
    exact ⟨rfl, rfl⟩

theorem Local.setCpu {cpu : Cpu P L W A} (hcur : cpu.cur = (s.cpu c).cur)
    (hhome : ∀ p, (s.cpu c).cur = some p → cpu.proc = (s.cpu c).proc ∧ cpu.code = (s.cpu c).code) :
    Local c s (s.setCpu c cpu) where
  cpu c' hc' := State.cpu_setCpu_of_ne hc'
  cur := by rw [State.cpu_setCpu, hcur]
  proc _ _ := rfl
  lock _ _ _ := Iff.rfl
  home p hp := by
    rw [State.cpu_setCpu]
    exact hhome p hp

theorem Local.setProc (hcur : (s.cpu c).cur = some p) (pr : Proc P L W A) :
    Local c s (s.setProc p pr) where
  cpu _ _ := rfl
  cur := rfl
  proc _ hq := State.proc_setProc_of_ne fun hc => hq (hc ▸ hcur)
  lock _ _ _ := Iff.rfl
  home _ _ := ⟨rfl, rfl⟩

theorem Local.setLock {holder : Option C} (hfree : s.lock l = none ∨ s.lock l = some c)
    (hholder : holder = none ∨ holder = some c) : Local c s (s.setLock l holder) where
  cpu _ _ := rfl
  cur := rfl
  proc _ _ := rfl
  lock c' hc' l' := by
    by_cases hl : l' = l
    · subst hl
      rw [State.lock_setLock]
      rcases hfree with hf | hf <;> rcases hholder with rfl | rfl <;> simp [hf, hc'.symm]
    · rw [State.lock_setLock_of_ne hl]
  home _ _ := ⟨rfl, rfl⟩

theorem Local.release (hlock : s.lock l = some c) {cpu : Cpu P L W A}
    (hcur : cpu.cur = (s.cpu c).cur)
    (hhome : cpu.proc = (s.cpu c).proc ∧ cpu.code = (s.cpu c).code) :
    Local c s ((s.setLock l none).setCpu c cpu) :=
  (Local.setLock (Or.inr hlock) (Or.inl rfl)).trans (Local.setCpu (s := s.setLock l none) hcur
    fun _ _ => hhome)

/-- **What one thread does keeps the invariant**, when its own part of it is kept. -/
theorem Inv.local (h : Inv K rank s) (hl : Local c s s') (hthread : Thread K rank s' c)
    (hoff : 0 < (s'.cpu c).noff → (s'.cpu c).sie = false)
    (hidle : (s.cpu c).cur = none → (s'.cpu c).proc = none) :
    Inv K rank s' := by
  have hcur : ∀ c', (s'.cpu c').cur = (s.cpu c').cur := by
    intro c'
    by_cases hc' : c' = c
    · rw [hc', hl.cur]
    · rw [hl.cpu c' hc']
  refine ⟨fun c' => ?_, fun c₁ c₂ p h₁ h₂ => ?_, fun p hp => ?_⟩
  · by_cases hc' : c' = c
    · subst hc'
      refine ⟨hthread, hoff, fun p hp => ?_, fun hp => Or.inl (hidle (hl.cur.symm.trans hp))⟩
      rw [hl.cur] at hp
      rw [(hl.home p hp).1, (hl.home p hp).2]
      exact (h.cpu c').home p hp
    · -- another CPU sees nothing of it
      apply (h.cpu c').frame (hl.cpu c' hc') (hl.lock c' hc')
      intro p hp
      rw [hl.proc p fun hc => hc' (h.once c' c p hp hc)]
      exact ⟨rfl, rfl⟩
  · rw [hcur] at h₁ h₂
    exact h.once c₁ c₂ p h₁ h₂
  · have hp' : ∀ c', (s.cpu c').cur ≠ some p := fun c' => hcur c' ▸ hp c'
    exact (h.resting p hp').frame (by rw [hl.proc p (hp' c)]) (by rw [hl.proc p (hp' c)])

/-- The code of the other CPUs. -/
theorem Inv.code_of_local (h : Inv K rank s) (hl : Local c s s') (hc : c' ≠ c) :
    s'.code c' = s.code c' := by
  refine code_congr (hl.cpu c' hc) fun p hp => ?_
  rw [hl.proc p fun hcur => hc (h.once c' c p hp hcur)]

/-- A thread goes on with code that is checked against the locks that it holds now. -/
theorem Thread.intro (held : List (Lock P L)) (hnodup : held.Nodup)
    (hmem : ∀ l, l ∈ held ↔ s.lock l = some c) (hnoff : (s.cpu c).noff = held.length)
    (hcheck : Checked K rank (s.cpu c).cur (s.threadState c) held (s.code c)) :
    Thread K rank s c := by
  obtain ⟨hspins, hnow⟩ := hcheck.now
  exact ⟨held, hnodup, hmem, by rw [hspins, hnoff, Nat.add_zero], hnow⟩

/-- **A thread goes on** in a state that it has changed. -/
theorem Inv.next (h : Inv K rank s) (hl : Local c s s') (held : List (Lock P L))
    (hnodup : held.Nodup)
    (hmem : ∀ l, l ∈ held ↔ s'.lock l = some c) (hnoff : (s'.cpu c).noff = held.length)
    (hoff : 0 < (s'.cpu c).noff → (s'.cpu c).sie = false)
    (hidle : (s.cpu c).cur = none → (s'.cpu c).proc = none)
    (hcheck : Checked K rank (s.cpu c).cur (s'.threadState c) held k) :
    Inv K rank (s'.setCode c k) := by
  apply h.local (hl.trans (Local.setCode c s' k))
  · apply Thread.intro held hnodup
    · rw [State.lock_setCode]
      exact hmem
    · rw [State.noff_setCode, hnoff]
    · rw [State.code_setCode, threadState_setCode, State.cur_setCode, hl.cur]
      exact hcheck
  · rw [State.noff_setCode, State.sie_setCode]
    exact hoff
  · rw [State.cproc_setCode]
    exact hidle

/-! ## Steps that other threads see -/

/-- A process that rests changes. -/
theorem Inv.setResting (h : Inv K rank s) {pr : Proc P L W A} (hrest : ∀ c, (s.cpu c).cur ≠ some p)
    (hpr : Resting K rank (s.setProc p pr) p) : Inv K rank (s.setProc p pr) := by
  refine ⟨fun c => ?_, h.once, fun q hq => ?_⟩
  · refine (h.cpu c).frame rfl (fun _ => Iff.rfl) fun q hcur => ?_
    have hqp : q ≠ p := by
      rintro rfl
      exact hrest c hcur
    rw [State.proc_setProc_of_ne hqp]
    exact ⟨rfl, rfl⟩
  · by_cases hqp : q = p
    · subst hqp
      exact hpr
    · exact (h.resting q hq).frame (by rw [State.proc_setProc_of_ne hqp])
        (by rw [State.proc_setProc_of_ne hqp])

/-- The state of a process that rests, and its `killed`, may change. -/
theorem Inv.setProc (h : Inv K rank s) {pr : Proc P L W A} (hcode : pr.code = (s.proc p).code)
    (hstate : pr.state = (s.proc p).state ∨ (∀ c, (s.cpu c).cur ≠ some p) ∧
      (s.proc p).state = .sleeping ∧ pr.state = .runnable) : Inv K rank (s.setProc p pr) := by
  have hsame : ∀ q, ((s.setProc p pr).proc q).code = (s.proc q).code := by
    intro q
    by_cases hq : q = p
    · rw [hq, State.proc_setProc, hcode]
    · rw [State.proc_setProc_of_ne hq]
  refine ⟨fun c => ?_, h.once, fun q hq => ?_⟩
  · refine (h.cpu c).frame rfl (fun _ => Iff.rfl) fun q hcur => ⟨hsame q, ?_⟩
    by_cases hq : q = p
    · subst hq
      rw [State.proc_setProc]
      exact hstate.elim id fun hrest => absurd hcur (hrest.1 c)
    · rw [State.proc_setProc_of_ne hq]
  · by_cases hqp : q = p
    · subst hqp
      rcases hstate with heq | ⟨-, hs, hr⟩
      · exact (h.resting q hq).frame (by rw [State.proc_setProc, heq]) (hsame q)
      · constructor
        · rw [State.proc_setProc, hr]
          exact ProcState.noConfusion
        · rw [hsame q]
          exact fun _ => (h.resting q hq).code (Or.inl hs)
    · exact (h.resting q hq).frame (by rw [State.proc_setProc_of_ne hqp]) (hsame q)

/-- Waking up a process whose lock is held. -/
theorem Inv.rouse (h : Inv K rank s) (hlock : s.lock (.proc p) = some c)
    (hcur : (s.cpu c).cur ≠ some p)
    (hst : (s.proc p).state = .sleeping) : Inv K rank (s.rouse p) := by
  have hne : (s.proc p).state ≠ .running := by
    rw [hst]
    exact ProcState.noConfusion
  exact h.setProc rfl (Or.inr ⟨h.resting_of_held hlock hne hcur, hst, rfl⟩)

theorem checked_forkret (p : P) : Checked K rank (some p) .running [.proc p] (forkret p) := by
  refine ⟨List.mem_singleton_self _, Or.inl rfl, ?_⟩
  rw [List.erase_cons_head]
  exact ⟨rfl, rfl, rfl, rfl, rfl, rfl, rfl⟩

/-- A process in a free slot whose lock is held begins. -/
theorem Inv.begin (h : Inv K rank s) (hrest : ∀ c, (s.cpu c).cur ≠ some p) :
    Inv K rank (s.begin p) := by
  apply h.setResting hrest
  constructor <;> rw [State.proc_setProc]
  · exact ProcState.noConfusion
  · exact fun _ => ⟨(checked_forkret p).now.2, rfl⟩

/-- A process that has exited leaves its slot. -/
theorem Inv.freeproc (h : Inv K rank s) (hrest : ∀ c, (s.cpu c).cur ≠ some p) :
    Inv K rank (s.freeproc p) := by
  apply h.setResting hrest
  constructor <;> rw [State.proc_setProc]
  · exact ProcState.noConfusion
  · rintro (hc | hc) <;> cases hc

/-- `sched`, where a process leaves its CPU to the scheduler. -/
theorem Inv.switch (h : Inv K rank s) (hcur : (s.cpu c).cur = some p)
    (hlock : ∀ l, l = .proc p ↔ s.lock l = some c)
    (hnoff : (s.cpu c).noff = 1) (hst : (s.proc p).state ≠ .running)
    (hcheck : (s.proc p).state ≠ .zombie → Checked K rank (some p) .running [.proc p] k)
    (intena : Bool) :
    Inv K rank ((s.setProc p { s.proc p with intena := intena, code := .restoreIntena :: k }).setCpu
      c { s.cpu c with cur := none }) := by
  have hne : ∀ c' q, c' ≠ c → (s.cpu c').cur = some q → q ≠ p := by
    rintro c' q hc' hq rfl
    exact hc' (h.once c' c q hq hcur)
  refine ⟨fun c' => ?_, fun c₁ c₂ q h₁ h₂ => ?_, fun q hq => ?_⟩
  -- The scheduler goes on where it dispatched, with the lock of the process it ran.
  · by_cases hc' : c' = c
    · subst hc'
      obtain ⟨-, khome, hclear, hhome⟩ := (h.cpu c').home p hcur
      refine ⟨Thread.intro [.proc p] (List.pairwise_singleton ..) (fun l => ?_) ?_ ?_, ?_,
        fun q hq => ?_, fun _ => ?_⟩
      · rw [List.mem_singleton]
        exact hlock l
      · rw [State.cpu_setCpu]
        exact hnoff
      · rw [State.code_of_none (by rw [State.cpu_setCpu]),
          threadState_of_none (by rw [State.cpu_setCpu]), State.cpu_setCpu]
        exact hhome
      · rw [State.cpu_setCpu]
        exact (h.cpu c').off
      · rw [State.cpu_setCpu] at hq
        cases hq
      · rw [State.cpu_setCpu]
        exact Or.inr ⟨khome, hclear⟩
    · refine (h.cpu c').frame (State.cpu_setCpu_of_ne (s := s.setProc p _) hc') (fun _ => Iff.rfl)
        fun q hq => ?_
      rw [State.proc_setCpu, State.proc_setProc_of_ne (hne c' q hc' hq)]
      exact ⟨rfl, rfl⟩
  · by_cases hc₁ : c₁ = c
    · subst hc₁
      rw [State.cpu_setCpu] at h₁
      cases h₁
    by_cases hc₂ : c₂ = c
    · subst hc₂
      rw [State.cpu_setCpu] at h₂
      cases h₂
    rw [State.cpu_setCpu_of_ne hc₁] at h₁
    rw [State.cpu_setCpu_of_ne hc₂] at h₂
    exact h.once c₁ c₂ q h₁ h₂
  · by_cases hqp : q = p
    · subst hqp
      constructor <;> rw [State.proc_setCpu, State.proc_setProc]
      · exact hst
      -- asleep or runnable, the code waits for its `restoreIntena`
      · rintro (hs | hr)
        · have hne : (s.proc q).state ≠ .zombie := by
            rw [show (s.proc q).state = _ from hs]
            exact ProcState.noConfusion
          exact ⟨⟨rfl, nofun, hcheck hne⟩, rfl⟩
        · have hne : (s.proc q).state ≠ .zombie := by
            rw [show (s.proc q).state = _ from hr]
            exact ProcState.noConfusion
          exact ⟨⟨rfl, nofun, hcheck hne⟩, rfl⟩
    · have hrest : ∀ c', (s.cpu c').cur ≠ some q := by
        intro c' hc'
        by_cases hcc : c' = c
        · rw [hcc, hcur] at hc'
          exact hqp (Option.some.inj hc').symm
        · exact hq c' (by rw [State.cpu_setCpu_of_ne hcc]; exact hc')
      apply (h.resting q hrest).frame <;> rw [State.proc_setCpu, State.proc_setProc_of_ne hqp]

/-- `scheduler`, where it runs a process. -/
theorem Inv.dispatch (h : Inv K rank s) (hcur : (s.cpu c).cur = none)
    (hlock : ∀ l, l = .proc p ↔ s.lock l = some c)
    (hnoff : (s.cpu c).noff = 1) (hst : (s.proc p).state = .runnable)
    (hcheck : Checked K rank none .running [.proc p] (.clearProc :: k)) :
    Inv K rank ((s.setProc p { s.proc p with state := .running }).setCpu c
      { s.cpu c with proc := some p, cur := some p, code := .clearProc :: k }) := by
  -- A process whose lock this processor holds runs nowhere else.
  have hrest : ∀ c', (s.cpu c').cur ≠ some p := by
    refine h.resting_of_held ((hlock _).mp rfl) ?_ (by rw [hcur]; exact nofun)
    rw [hst]
    exact ProcState.noConfusion
  -- It was put by with its own lock held, so the lock goes over to it.
  obtain ⟨hrun, hspins⟩ := (h.resting p hrest).code (Or.inr hst)
  refine ⟨fun c' => ?_, fun c₁ c₂ q h₁ h₂ => ?_, fun q hq => ?_⟩
  · by_cases hc' : c' = c
    · subst hc'
      refine ⟨⟨[.proc p], List.pairwise_singleton .., fun l => ?_, ?_, ?_⟩, ?_, fun q hq => ?_,
        fun hq => ?_⟩
      · rw [List.mem_singleton]
        exact hlock l
      · rw [State.code_of_some (p := p) (by rw [State.cpu_setCpu]), State.cpu_setCpu,
          State.proc_setCpu, State.proc_setProc, hspins]
        exact hnoff
      · rw [State.code_of_some (p := p) (by rw [State.cpu_setCpu]),
          threadState_of_some (p := p) (by rw [State.cpu_setCpu]), State.cpu_setCpu,
          State.proc_setCpu, State.proc_setProc]
        exact hrun
      · rw [State.cpu_setCpu]
        exact (h.cpu c').off
      · rw [State.cpu_setCpu] at hq ⊢
        obtain rfl := Option.some.inj hq
        exact ⟨rfl, k, rfl, hcheck⟩
      · rw [State.cpu_setCpu] at hq
        cases hq
    · refine (h.cpu c').frame (State.cpu_setCpu_of_ne (s := s.setProc p _) hc') (fun _ => Iff.rfl)
        fun q hq => ?_
      have hqp : q ≠ p := by
        rintro rfl
        exact hrest c' hq
      rw [State.proc_setCpu, State.proc_setProc_of_ne hqp]
      exact ⟨rfl, rfl⟩
  · have hother : ∀ c' q, c' ≠ c → ((s.setProc p { s.proc p with state := .running }).setCpu c
        { s.cpu c with proc := some p, cur := some p, code := .clearProc :: k } :
        State P L W A C σ).cpu c' = s.cpu c' ∧ ((s.cpu c').cur = some q → q ≠ p) := fun c' q hc' =>
      ⟨State.cpu_setCpu_of_ne hc', fun hq hc => hrest c' (hc ▸ hq)⟩
    by_cases hc₁ : c₁ = c <;> by_cases hc₂ : c₂ = c
    · rw [hc₁, hc₂]
    · rw [hc₁, State.cpu_setCpu] at h₁
      rw [(hother c₂ q hc₂).1] at h₂
      exact absurd (Option.some.inj h₁).symm ((hother c₂ q hc₂).2 h₂)
    · rw [hc₂, State.cpu_setCpu] at h₂
      rw [(hother c₁ q hc₁).1] at h₁
      exact absurd (Option.some.inj h₂).symm ((hother c₁ q hc₁).2 h₁)
    · rw [(hother c₁ q hc₁).1] at h₁
      rw [(hother c₂ q hc₂).1] at h₂
      exact h.once c₁ c₂ q h₁ h₂
  · have hqp : q ≠ p := by
      rintro rfl
      exact hq c (by rw [State.cpu_setCpu])
    have hrest' : ∀ c', (s.cpu c').cur ≠ some q := by
      intro c' hc'
      by_cases hcc : c' = c
      · rw [hcc, hcur] at hc'
        cases hc'
      · exact hq c' (by rw [State.cpu_setCpu_of_ne hcc]; exact hc')
    apply (h.resting q hrest').frame <;> rw [State.proc_setCpu, State.proc_setProc_of_ne hqp]

/-! ## What an instruction does -/

section

variable {w : W} {q : P}

theorem Local.refl (c : C) (s : State P L W A C σ) : Local c s s :=
  ⟨fun _ _ => rfl, rfl, fun _ _ => rfl, fun _ _ _ => Iff.rfl, fun _ _ => ⟨rfl, rfl⟩⟩

theorem Local.setData (c : C) (s : State P L W A C σ) (d : σ) : Local c s { s with data := d } :=
  ⟨fun _ _ => rfl, rfl, fun _ _ => rfl, fun _ _ _ => Iff.rfl, fun _ _ => ⟨rfl, rfl⟩⟩

theorem Local.pushOff (c : C) (s : State P L W A C σ) : Local c s (s.pushOff c) :=
  Local.setCpu rfl fun _ _ => ⟨rfl, rfl⟩

theorem threadState_congr (hcur : (s'.cpu c).cur = (s.cpu c).cur)
    (hproc : ∀ p, (s.cpu c).cur = some p → (s'.proc p).state = (s.proc p).state) :
    s'.threadState c = s.threadState c := by
  cases hp : (s.cpu c).cur with
  | some p => rw [threadState_of_some hp, threadState_of_some (hcur.trans hp), hproc p hp]
  | none => rw [threadState_of_none hp, threadState_of_none (hcur.trans hp)]

/-- The locks that a thread holds, in front of an instruction. -/
theorem Inv.holds (h : Inv K rank s) (hcode : s.code c = i :: k) (hi : i.Static) :
    ∃ held : List (Lock P L), held.Nodup ∧ (∀ l, l ∈ held ↔ s.lock l = some c) ∧
      (s.cpu c).noff = held.length ∧ Checked K rank (s.cpu c).cur (s.threadState c) held
      (i :: k) := by
  obtain ⟨held, hnodup, hmem, hnoff, hcheck⟩ := (h.cpu c).thread
  rw [hcode] at hnoff hcheck
  cases i
  case spin l => exact hi.elim
  case restoreIntena => exact hi.elim
  all_goals exact ⟨held, hnodup, hmem, hnoff, hcheck⟩

/-- `c->proc` of a scheduler, in front of an instruction that does not clear it. -/
theorem Inv.idle (h : Inv K rank s) (hcode : s.code c = i :: k) (hi : i ≠ .clearProc) :
    (s.cpu c).cur = none → (s.cpu c).proc = none := by
  intro hcur
  rcases (h.cpu c).idle hcur with hnone | ⟨k', hk'⟩
  · exact hnone
  · rw [State.code_of_none hcur, hk'] at hcode
    cases hcode
    exact absurd rfl hi

/-- **What an instruction does**, where no test of the kernel fails. -/
inductive Effect (K : Kernel P L W A σ) (s : State P L W A C σ) (c : C) (k : List (Instr P L W A)) :
    Instr P L W A → State P L W A C σ → Prop
  | acquire {l : Lock P L} : Effect K s c k (.acquire l) ((s.pushOff c).setCode c (.spin l :: k))
  | taken {l : Lock P L} (free : s.lock l = none) :
      Effect K s c k (.spin l) ((s.setLock l (some c)).setCode c k)
  | spins {l : Lock P L} : Effect K s c k (.spin l) s
  | release {l : Lock P L} (mine : s.lock l = some c) (pos : 0 < (s.cpu c).noff) :
      Effect K s c k (.release l) (((s.setLock l none).setCpu c { s.cpu c with
        noff := (s.cpu c).noff - 1
        sie := (s.cpu c).sie || ((s.cpu c).noff - 1 == 0 && (s.cpu c).intena) }).setCode c k)
  | act {a : A} : Effect K s c k (.act a)
      ({ s with data := K.perform a (s.cpu c).proc s.data }.setCode c k)
  | await {w : W} {p : P} (cur : (s.cpu c).cur = some p) :
      Effect K s c k (.await w) (s.setCode c (K.round p w s.data ++ .test w :: k))
  | test {w : W} {p : P} (cur : (s.cpu c).cur = some p)
      (guard : s.lock (.other (K.guard w)) = some c) : Effect K s c k (.test w)
        (s.setCode c (if K.waits w s.data (s.proc p).killed then sleep p w (K.guard w) ++
          .await w :: k else k))
  | sleeping {w : W} {p : P} (cur : (s.cpu c).cur = some p) : Effect K s c k (.setSleeping w)
      (s.setProc p { s.proc p with
        chan := some w
        state := .sleeping
        code := k })
  | setRunnable {p : P} (cur : (s.cpu c).cur = some p) :
      Effect K s c k .setRunnable (s.setProc p { s.proc p with state := .runnable, code := k })
  | setZombie {p : P} (cur : (s.cpu c).cur = some p) :
      Effect K s c k .setZombie (s.setProc p { s.proc p with state := .zombie, code := k })
  | clearChan {p : P} (cur : (s.cpu c).cur = some p) :
      Effect K s c k .clearChan (s.setProc p { s.proc p with chan := none, code := k })
  | switch {p : P} (cur : (s.cpu c).cur = some p) (only : ∀ l, l = .proc p ↔ s.lock l = some c)
      (noff : (s.cpu c).noff = 1) : Effect K s c k .sched
      ((s.setProc p { s.proc p with
        intena := (s.cpu c).intena
        code := .restoreIntena :: k }).setCpu c { s.cpu c with cur := none })
  | restore {p : P} (cur : (s.cpu c).cur = some p) : Effect K s c k .restoreIntena
      ((s.setCpu c { s.cpu c with intena := (s.proc p).intena }).setCode c k)
  | woken {q : P} {w : W} (lock : s.lock (.proc q) = some c) (cur : (s.cpu c).cur ≠ some q)
      (asleep : (s.proc q).state = .sleeping) :
      Effect K s c k (.wake q w) ((s.rouse q).setCode c k)
  | passed {q : P} {w : W} (lock : s.lock (.proc q) = some c)
      (awake : (s.proc q).state = .sleeping → (s.proc q).chan.map K.chan ≠ some (K.chan w)) :
      Effect K s c k (.wake q w) (s.setCode c k)
  | killed {q : P} : Effect K s c k (.kill q)
      ((s.setProc q { s.proc q with killed := true }).setCode c k)
  | roused {q : P} (lock : s.lock (.proc q) = some c) (cur : (s.cpu c).cur ≠ some q)
      (asleep : (s.proc q).state = .sleeping) : Effect K s c k (.kill q)
      (((s.setProc q { s.proc q with killed := true }).rouse q).setCode c k)
  | started {q : P} (rest : ∀ c', (s.cpu c').cur ≠ some q) (unused : (s.proc q).state = .unused) :
      Effect K s c k (.start q) ((s.begin q).setCode c k)
  | occupied {q : P} : Effect K s c k (.start q) (s.setCode c k)
  | freed {q : P} (rest : ∀ c', (s.cpu c').cur ≠ some q) (zombie : (s.proc q).state = .zombie) :
      Effect K s c k (.free q) ((s.freeproc q).setCode c k)
  | alive {q : P} : Effect K s c k (.free q) (s.setCode c k)
  | dispatch {p : P} (cur : (s.cpu c).cur = none) (only : ∀ l, l = .proc p ↔ s.lock l = some c)
      (noff : (s.cpu c).noff = 1) (runnable : (s.proc p).state = .runnable) :
      Effect K s c k (.dispatch p) ((s.setProc p { s.proc p with state := .running }).setCpu c
        { s.cpu c with proc := some p, cur := some p, code := .clearProc :: k })
  | skip {p : P} : Effect K s c k (.dispatch p) (s.setCode c k)
  | clearProc (cur : (s.cpu c).cur = none) :
      Effect K s c k .clearProc ((s.setCpu c { s.cpu c with proc := none }).setCode c k)
  | intrOn : Effect K s c k .intrOn ((s.setCpu c { s.cpu c with sie := true }).setCode c k)
  | intrOff : Effect K s c k .intrOff ((s.setCpu c { s.cpu c with sie := false }).setCode c k)
  | sret : Effect K s c k .sret ((s.setCpu c { s.cpu c with sie := true }).setCode c k)
  | userret (free : ∀ l, s.lock l ≠ some c) :
      Effect K s c k .userret ((s.setCpu c { s.cpu c with sie := true }).setCode c [])

/-- The instructions that are left to `execProc` and `execScheduler`. -/
def Instr.Own : Instr P L W A → Prop
  | .acquire _ | .spin _ | .release _ | .act _ | .wake .. | .kill _ | .start _ | .free _ => False
  | .intrOn | .intrOff | .sret | .restoreIntena => False
  | _ => True

theorem Instr.Own.static (h : i.Own) : i.Static := by
  cases i
  all_goals first | exact trivial | exact h.elim

theorem execInstr_of_some (hcur : (s.cpu c).cur = some p) (hi : i.Own ∨ i = .restoreIntena) :
    execInstr K s c i k = execProc K s c p i k := by
  rcases hi with hown | rfl
  · cases i
    all_goals first
      | exact hown.elim
      | unfold execInstr
        rw [hcur]
  · unfold execInstr
    rw [hcur]

theorem execInstr_of_none (hcur : (s.cpu c).cur = none) (hi : i.Own) :
    execInstr K s c i k = execScheduler s c i k := by
  cases i
  all_goals first
    | exact hi.elim
    | unfold execInstr
      rw [hcur]

/-- An instruction of a process passes the tests of the kernel. -/
theorem Inv.effect_proc (h : Inv K rank s) (hcode : s.code c = i :: k)
    (hcur : (s.cpu c).cur = some p) (hown : i.Own) :
    ∃ s', execProc K s c p i k = .ok s' ∧ Effect K s c k i s' := by
  have hi := hown.static
  obtain ⟨held, hnodup, hmem, hnoff, hheld⟩ := h.holds hcode hi
  rw [hcur, threadState_of_some hcur] at hheld
  cases i
  case await w =>
    exact ⟨_, rfl, .await hcur⟩
  case test w =>
    obtain ⟨-, -, rfl, -⟩ := hheld
    exact ⟨_, rfl, .test hcur ((hmem _).mp (List.mem_singleton_self _))⟩
  case setSleeping w => exact ⟨_, rfl, .sleeping hcur⟩
  case setRunnable => exact ⟨_, rfl, .setRunnable hcur⟩
  case setZombie => exact ⟨_, rfl, .setZombie hcur⟩
  case clearChan => exact ⟨_, rfl, .clearChan hcur⟩
  case sched =>
    obtain ⟨hst, ⟨q, hq, rfl⟩, hk⟩ := hheld
    obtain rfl := Option.some.inj hq
    have honly : ∀ l, l = .proc p ↔ s.lock l = some c := fun l => by rw [← hmem, List.mem_singleton]
    have hoff : ¬ (s.cpu c).sie = true := by
      rw [(h.cpu c).off (by rw [hnoff]; exact Nat.one_pos)]
      exact Bool.false_ne_true
    refine ⟨_, (if_neg (not_not.mpr ((honly _).mp rfl))).trans ((if_neg (not_not.mpr hnoff)).trans
      ((if_neg hst).trans (if_neg hoff))), .switch hcur honly hnoff⟩
  case userret =>
    obtain ⟨-, -, rfl, -⟩ := hheld
    exact ⟨_, rfl, .userret fun l hl => absurd ((hmem l).mpr hl) List.not_mem_nil⟩
  case dispatch q => exact absurd hheld.2.1 nofun
  case clearProc => exact absurd hheld.2.1 nofun
  case zombieExit => exact hheld.elim
  all_goals exact hown.elim

/-- An instruction of a scheduler passes the tests of the kernel. -/
theorem Inv.effect_scheduler (h : Inv K rank s) (hcode : s.code c = i :: k)
    (hcur : (s.cpu c).cur = none)
    (hown : i.Own) : ∃ s', execScheduler s c i k = .ok s' ∧ Effect K s c k i s' := by
  obtain ⟨held, hnodup, hmem, hnoff, hheld⟩ := h.holds hcode hown.static
  rw [hcur, threadState_of_none hcur] at hheld
  cases i
  case dispatch q =>
    obtain ⟨-, -, rfl, -⟩ := hheld
    by_cases hst : (s.proc q).state = .runnable
    · exact ⟨_, if_pos hst, .dispatch hcur (fun l => by rw [← hmem, List.mem_singleton]) hnoff hst⟩
    · exact ⟨_, if_neg hst, .skip⟩
  case clearProc => exact ⟨_, rfl, .clearProc hcur⟩
  case await w => exact absurd hheld.2.1 nofun
  case test w => exact absurd hheld.2.1 nofun
  case clearChan => exact absurd hheld.2.1 nofun
  case userret => exact absurd hheld.2.1 nofun
  case setSleeping w =>
    obtain ⟨-, ⟨p, hp, -⟩, -⟩ := hheld
    cases hp
  case setRunnable =>
    obtain ⟨-, ⟨p, hp, -⟩, -⟩ := hheld
    cases hp
  case setZombie =>
    obtain ⟨-, ⟨p, hp, -⟩, -⟩ := hheld
    cases hp
  case sched =>
    obtain ⟨-, ⟨p, hp, -⟩, -⟩ := hheld
    cases hp
  case zombieExit => exact hheld.elim
  all_goals exact hown.elim

/-- **An instruction passes the tests of the kernel.** -/
theorem Inv.effect (h : Inv K rank s) (hcode : s.code c = i :: k) :
    ∃ s', execInstr K s c i k = .ok s' ∧ Effect K s c k i s' := by
  -- The instructions on the process's own record need to know whether the processor runs a process
  -- or the scheduler.
  have hown : i.Own → ∃ s', execInstr K s c i k = .ok s' ∧ Effect K s c k i s' := by
    intro hown
    cases hcur : (s.cpu c).cur with
    | some p =>
      rw [execInstr_of_some hcur (Or.inl hown)]
      exact h.effect_proc hcode hcur hown
    | none =>
      rw [execInstr_of_none hcur hown]
      exact h.effect_scheduler hcode hcur hown
  cases i
  case acquire l =>
    obtain ⟨held, -, hmem, -, -, hrank, -⟩ := h.holds hcode trivial
    -- A processor never asks for a lock that it holds, since the locks it holds rank below.
    have hfree : s.lock l ≠ some c := fun hc => Nat.lt_irrefl _ (hrank l ((hmem l).mpr hc))
    exact ⟨_, if_neg hfree, .acquire⟩
  case spin l =>
    by_cases hlock : s.lock l = none
    · exact ⟨_, if_pos hlock, .taken hlock⟩
    · exact ⟨_, if_neg hlock, .spins⟩
  case release l =>
    obtain ⟨held, -, hmem, hnoff, hin, -⟩ := h.holds hcode trivial
    have hlock : s.lock l = some c := (hmem l).mp hin
    have hpos : 0 < (s.cpu c).noff := by
      rw [hnoff]
      exact List.length_pos_of_mem hin
    -- The lock is held, so interrupts are off and the count is positive: neither panic of `pop_off`
    -- is taken.
    have hoff : ¬ ((s.setLock l none).cpu c).sie = true := by
      rw [State.cpu_setLock, (h.cpu c).off hpos]
      exact Bool.false_ne_true
    have hpop : (s.setLock l none).popOff c = .ok ((s.setLock l none).setCpu c { s.cpu c with
        noff := (s.cpu c).noff - 1
        sie := (s.cpu c).sie || ((s.cpu c).noff - 1 == 0 && (s.cpu c).intena) }) :=
      (if_neg hoff).trans (if_neg (Nat.not_lt.mpr hpos))
    exact ⟨_, (if_neg (not_not.mpr hlock)).trans (congrArg (Except.map fun s => s.setCode c k)
      hpop), .release hlock hpos⟩
  case act a => exact ⟨_, rfl, .act⟩
  case wake q w =>
    obtain ⟨held, -, hmem, -, -, hme, hin, -⟩ := h.holds hcode trivial
    by_cases hw : (s.proc q).state = .sleeping ∧ (s.proc q).chan.map K.chan = some (K.chan w)
    · exact ⟨_, if_pos hw, .woken ((hmem _).mp hin) hme hw.1⟩
    · exact ⟨_, if_neg hw, .passed ((hmem _).mp hin) fun hst hchan => hw ⟨hst, hchan⟩⟩
  case kill q =>
    obtain ⟨held, -, hmem, -, hst, hin, -⟩ := h.holds hcode trivial
    have hstate : ((s.setProc q { s.proc q with killed := true }).proc q).state =
      (s.proc q).state := by
      rw [State.proc_setProc]
    by_cases hw : (s.proc q).state = .sleeping
    -- a process that kills itself is running and not asleep
    · refine ⟨_, if_pos (hstate.trans hw), .roused ((hmem _).mp hin) (fun hc => ?_) hw⟩
      rw [threadState_of_some hc, hw] at hst
      cases hst
    · exact ⟨_, if_neg fun hc => hw (hstate.symm.trans hc), .killed⟩
  case start q =>
    obtain ⟨held, -, hmem, -, hst, hin, -⟩ := h.holds hcode trivial
    by_cases hw : (s.proc q).state = .unused
    · refine ⟨_, if_pos hw, .started (h.resting_of_locked hst ((hmem _).mp hin) ?_) hw⟩
      rw [hw]
      exact ProcState.noConfusion
    · exact ⟨_, if_neg hw, .occupied⟩
  case free q =>
    obtain ⟨held, -, hmem, -, hst, hin, -⟩ := h.holds hcode trivial
    by_cases hw : (s.proc q).state = .zombie
    · refine ⟨_, if_pos hw, .freed (h.resting_of_locked hst ((hmem _).mp hin) ?_) hw⟩
      rw [hw]
      exact ProcState.noConfusion
    · exact ⟨_, if_neg hw, .alive⟩
  case intrOn => exact ⟨_, rfl, .intrOn⟩
  case intrOff => exact ⟨_, rfl, .intrOff⟩
  case sret => exact ⟨_, rfl, .sret⟩
  case restoreIntena =>
    obtain ⟨held, -, -, -, hnow⟩ := (h.cpu c).thread
    rw [hcode] at hnow
    obtain ⟨p, hcur⟩ := Option.isSome_iff_exists.mp hnow.1
    rw [execInstr_of_some hcur (Or.inr rfl)]
    exact ⟨_, rfl, .restore hcur⟩
  all_goals exact hown trivial

/-! ## The invariant behind an instruction -/

/-- An instruction that changes the locks, the processes and `noff` in no way that the invariant is
about. -/
theorem Inv.plain (h : Inv K rank s) (hcode : s.code c = i :: k) (hi : i.Static) (hl : Local c s s')
    (hlock : s'.lock = s.lock) (hnoff : (s'.cpu c).noff = (s.cpu c).noff)
    (hoff : 0 < (s.cpu c).noff → (s'.cpu c).sie = false)
    (hproc : (s.cpu c).cur = none → (s'.cpu c).proc = none)
    (hst : s'.threadState c = s.threadState c)
    (hcheck : ∀ held : List (Lock P L), (s.cpu c).noff = held.length →
      Checked K rank (s.cpu c).cur (s.threadState c) held (i :: k) →
        Checked K rank (s.cpu c).cur (s.threadState c) held k') : Inv K rank (s'.setCode c k') := by
  obtain ⟨held, hnodup, hmem, hlen, hheld⟩ := h.holds hcode hi
  refine h.next hl held hnodup (fun l => ?_) (hnoff.trans hlen) (fun hpos => hoff (hnoff ▸ hpos))
    hproc ?_
  · rw [hlock, hmem]
  · rw [hst]
    exact hcheck held hlen hheld

/-- The same, of an instruction that changes flags of its CPU. -/
theorem Inv.flags (h : Inv K rank s) (hcode : s.code c = i :: k) (hi : i.Static) {cpu : Cpu P L W A}
    (hcur : cpu.cur = (s.cpu c).cur) (hhome : cpu.code = (s.cpu c).code)
    (hnoff : cpu.noff = (s.cpu c).noff) (hoff : 0 < (s.cpu c).noff → cpu.sie = false)
    (hproc : cpu.proc = (s.cpu c).proc ∧ i ≠ .clearProc ∨ cpu.proc = none ∧ (s.cpu c).cur = none)
    (hcheck : ∀ held : List (Lock P L), (s.cpu c).noff = held.length →
      Checked K rank (s.cpu c).cur (s.threadState c) held (i :: k) →
        Checked K rank (s.cpu c).cur (s.threadState c) held k') :
        Inv K rank ((s.setCpu c cpu).setCode c k') := by
  have hl : Local c s (s.setCpu c cpu) := by
    refine Local.setCpu hcur fun p hp => ⟨?_, hhome⟩
    rcases hproc with ⟨hsame, -⟩ | ⟨-, hnone⟩
    · exact hsame
    · rw [hnone] at hp
      cases hp
  refine h.plain hcode hi hl rfl ?_ (fun hpos => ?_) (fun hnone => ?_)
    (threadState_congr hl.cur fun _ _ => rfl) hcheck
  · rw [State.cpu_setCpu, hnoff]
  · rw [State.cpu_setCpu]
    exact hoff hpos
  · rw [State.cpu_setCpu]
    rcases hproc with ⟨hsame, hne⟩ | ⟨hfree, -⟩
    · rw [hsame]
      exact h.idle hcode hne hnone
    · exact hfree

/-- Interrupts are enabled or disabled where no lock is held. -/
theorem Inv.setSie (h : Inv K rank s) (hcode : s.code c = i :: k) (hi : i.Static)
    (hne : i ≠ .clearProc) (sie : Bool)
    (hcheck : ∀ held : List (Lock P L), Checked K rank (s.cpu c).cur (s.threadState c)
      held (i :: k) → held = [] ∧ Checked K rank (s.cpu c).cur (s.threadState c) held k') :
    Inv K rank ((s.setCpu c { s.cpu c with sie := sie }).setCode c k') := by
  obtain ⟨held, hnodup, hmem, hlen, hheld⟩ := h.holds hcode hi
  obtain ⟨rfl, -⟩ := hcheck held hheld
  refine h.flags hcode hi rfl rfl rfl (fun hpos => ?_) (Or.inl ⟨rfl, hne⟩) fun held _ hc =>
    (hcheck held hc).2
  rw [hlen] at hpos
  cases hpos

/-- A thread changes its process. -/
theorem Inv.own (h : Inv K rank s) (hcode : s.code c = i :: k) (hi : i.Static)
    (hcur : (s.cpu c).cur = some p)
    {pr : Proc P L W A} (hcheck : ∀ held : List (Lock P L), Checked K rank (some p) (s.proc p).state
      held (i :: k) →
      Checked K rank (some p) pr.state held pr.code) : Inv K rank (s.setProc p pr) := by
  obtain ⟨held, hnodup, hmem, hlen, hheld⟩ := h.holds hcode hi
  rw [hcur, threadState_of_some hcur] at hheld
  apply h.local (Local.setProc hcur pr) _ (h.cpu c).off fun hnone =>
    absurd (hcur.symm.trans hnone) nofun
  refine Thread.intro held hnodup hmem hlen ?_
  have hcur' : ((s.setProc p pr).cpu c).cur = some p := hcur
  rw [State.code_of_some hcur', threadState_of_some hcur', State.proc_setProc, hcur']
  exact hcheck held hheld

theorem Inv.acquire (h : Inv K rank s) (hcode : s.code c = .acquire l :: k) :
    Inv K rank ((s.pushOff c).setCode c (.spin l :: k)) := by
  obtain ⟨held, hnodup, hmem, hnoff, hst, hrank, hk⟩ := h.holds hcode trivial
  refine h.local ((Local.pushOff c s).trans (Local.setCode ..)) ⟨held, hnodup, ?_, ?_, ?_⟩
    (fun _ => ?_) fun hcur => ?_
  · rw [State.lock_setCode]
    exact hmem
  · rw [State.noff_setCode, State.code_setCode, State.pushOff, State.cpu_setCpu]
    exact congrArg (· + 1) hnoff
  · rw [State.code_setCode, threadState_setCode, State.cur_setCode, (Local.pushOff c s).cur]
    refine ⟨?_, hrank, hk⟩
    exact (threadState_congr (Local.pushOff c s).cur fun _ _ => rfl).trans hst
  · rw [State.sie_setCode, State.pushOff, State.cpu_setCpu]
  · rw [State.cproc_setCode, State.pushOff, State.cpu_setCpu]
    exact h.idle hcode nofun hcur

theorem Inv.spin (h : Inv K rank s) (hcode : s.code c = .spin l :: k) (hfree : s.lock l = none) :
    Inv K rank ((s.setLock l (some c)).setCode c k) := by
  obtain ⟨held, hnodup, hmem, hnoff, hcheck⟩ := (h.cpu c).thread
  rw [hcode] at hnoff hcheck
  obtain ⟨hst, hrank, hk⟩ := hcheck
  have hnew : l ∉ held := fun hc => Nat.lt_irrefl _ (hrank l hc)
  refine h.next (Local.setLock (Or.inl hfree) (Or.inr rfl)) (l :: held)
    (List.nodup_cons.mpr ⟨hnew, hnodup⟩) (fun l' => ?_) hnoff (h.cpu c).off (h.idle hcode nofun) ?_
  · rw [List.mem_cons]
    by_cases hl : l' = l
    · rw [hl, State.lock_setLock]
      exact ⟨fun _ => rfl, fun _ => Or.inl rfl⟩
    · rw [State.lock_setLock_of_ne hl, hmem]
      exact ⟨fun hc => hc.resolve_left hl, Or.inr⟩
  · rw [show (s.setLock l (some c)).threadState c = .running from hst]
    exact hk

theorem Inv.release (h : Inv K rank s) (hcode : s.code c = .release l :: k)
    (hlock : s.lock l = some c) (hpos : 0 < (s.cpu c).noff) :
    Inv K rank (((s.setLock l none).setCpu c { s.cpu c with
      noff := (s.cpu c).noff - 1
      sie := (s.cpu c).sie || ((s.cpu c).noff - 1 == 0 && (s.cpu c).intena) }).setCode c k) := by
  obtain ⟨held, hnodup, hmem, hnoff, hin, -, hk⟩ := h.holds hcode trivial
  have hl : Local c s ((s.setLock l none).setCpu c { s.cpu c with
      noff := (s.cpu c).noff - 1
      sie := (s.cpu c).sie || ((s.cpu c).noff - 1 == 0 && (s.cpu c).intena) }) :=
        Local.release hlock rfl ⟨rfl, rfl⟩
  refine h.next hl (held.erase l) (hnodup.erase l) (fun l' => ?_) ?_ (fun hlt => ?_)
    (fun hc => ?_) ?_
  · rw [State.lock_setCpu, hnodup.mem_erase_iff, hmem]
    by_cases hl' : l' = l
    · rw [hl', State.lock_setLock]
      exact ⟨fun hc => absurd rfl hc.1, nofun⟩
    · rw [State.lock_setLock_of_ne hl']
      exact ⟨fun hc => hc.2, fun hc => ⟨hl', hc⟩⟩
  · rw [State.cpu_setCpu, List.length_erase_of_mem hin, hnoff]
  · rw [State.cpu_setCpu] at hlt ⊢
    have hne : ((s.cpu c).noff - 1 == 0) = false := beq_false_of_ne (Nat.pos_iff_ne_zero.mp hlt)
    rw [(h.cpu c).off hpos, hne]
    rfl
  · rw [State.cpu_setCpu]
    exact h.idle hcode nofun hc
  · rw [threadState_congr hl.cur fun _ _ => rfl]
    exact hk

/-- The rest of `sched`. -/
theorem Inv.restoreIntena (h : Inv K rank s) (hcode : s.code c = .restoreIntena :: k)
    (hcur : (s.cpu c).cur = some p) :
    Inv K rank ((s.setCpu c { s.cpu c with intena := (s.proc p).intena }).setCode c k) := by
  obtain ⟨held, hnodup, hmem, hnoff, hk⟩ := (h.cpu c).thread
  rw [hcode] at hnoff hk
  have hl : Local c s (s.setCpu c { s.cpu c with intena := (s.proc p).intena }) :=
    Local.setCpu rfl fun _ _ => ⟨rfl, rfl⟩
  refine h.next hl held hnodup hmem ?_ ?_ (fun hnone => absurd (hcur.symm.trans hnone) nofun) ?_
  · rw [State.cpu_setCpu]
    exact hnoff
  · rw [State.cpu_setCpu]
    exact (h.cpu c).off
  · rw [threadState_congr hl.cur fun _ _ => rfl]
    exact hk.2.2

theorem code_rouse : (s.rouse q).code c = s.code c := by
  rw [State.rouse, code_setProc]
  rfl

theorem code_setKilled : (s.setProc q { s.proc q with killed := true }).code c = s.code c := by
  rw [code_setProc]
  rfl

theorem state_setKilled {st : ProcState} (hst : (s.proc q).state = st) :
    ((s.setProc q { s.proc q with killed := true }).proc q).state = st := by
  rw [State.proc_setProc]
  exact hst

/-- The code of a CPU, where a process changes that rests. -/
theorem code_setProc_of_resting (hrest : ∀ c, (s.cpu c).cur ≠ some q) {pr : Proc P L W A} :
    (s.setProc q pr).code c = s.code c := by
  refine code_congr rfl fun p hp => ?_
  have hpq : p ≠ q := by
    rintro rfl
    exact hrest c hp
  rw [State.proc_setProc_of_ne hpq]

/-- What the loops of the conditions need: the lock of a condition comes before those of the
processes, and what is done in each round gives back the locks that it takes. -/
structure Kernel.Checked (K : Kernel P L W A σ) (rank : Lock P L → Nat) : Prop where
  order : ∀ w q, rank (.other (K.guard w)) < rank (.proc q)
  round : ∀ p w d k, Sched.Checked K rank (some p) .running [.other (K.guard w)] k →
    Sched.Checked K rank (some p) .running [.other (K.guard w)] (K.round p w d ++ k)

/-- **An instruction keeps the invariant.** -/
theorem Effect.inv (heff : Effect K s c k i s') (hkernel : K.Checked rank) (h : Inv K rank s)
    (hcode : s.code c = i :: k) : Inv K rank s' := by
  have hkilled : ∀ q : P, Inv K rank (s.setProc q { s.proc q with killed := true }) := fun q =>
    h.setProc rfl (Or.inl rfl)
  -- What is left of the code is checked because the whole of it was: `hcheck` is the discipline of
  -- the instruction just executed.
  cases heff with
  | acquire => exact h.acquire hcode
  | taken free => exact h.spin hcode free
  | spins => exact h
  | release mine pos => exact h.release hcode mine pos
  | act =>
    exact h.plain hcode trivial (Local.setData c s _) rfl rfl (h.cpu c).off (h.idle hcode nofun) rfl
      fun _ _ hcheck => hcheck.2.2
  | @await w p cur =>
    refine h.plain hcode trivial (Local.refl c s) rfl rfl (h.cpu c).off (h.idle hcode nofun) rfl
      fun held _ hcheck => ?_
    obtain ⟨hst, -, rfl, hk⟩ := hcheck
    rw [hst, cur] at hk ⊢
    -- The round comes first, and the test behind it has the guard held alone again.
    exact hkernel.round p w s.data _ ⟨rfl, rfl, rfl, hk⟩
  | @test w p cur guard =>
    refine h.plain hcode trivial (Local.refl c s) rfl rfl (h.cpu c).off (h.idle hcode nofun) rfl
      fun held _ hcheck => ?_
    obtain ⟨hst, -, rfl, hk⟩ := hcheck
    split
    -- `sleep` is entered with the guard held alone, `wait` goes on past it otherwise.
    · rw [hst, cur] at hk ⊢
      exact checked_sleep (hkernel.order _ _) ⟨rfl, rfl, rfl, hk⟩
    · exact hk
  | sleeping cur => exact h.own hcode trivial cur fun _ hcheck => hcheck.2.2
  | setRunnable cur => exact h.own hcode trivial cur fun _ hcheck => hcheck.2.2
  | setZombie cur => exact h.own hcode trivial cur fun _ hcheck => hcheck.2.2
  | clearChan cur => exact h.own hcode trivial cur fun _ hcheck => hcheck.2.2
  | switch cur only noff =>
    obtain ⟨held, -, hmem, -, hst, ⟨q, hq, rfl⟩, hk⟩ := h.holds hcode trivial
    rw [cur] at hq hk
    obtain rfl := Option.some.inj hq
    rw [threadState_of_some cur] at hst hk
    exact h.switch cur only noff hst hk _
  | restore cur => exact h.restoreIntena hcode cur
  | woken lock cur asleep =>
    exact (h.rouse lock cur asleep).plain (code_rouse.trans hcode) trivial (Local.refl c _) rfl
      rfl (h.cpu c).off (h.idle hcode nofun) rfl fun _ _ hcheck => hcheck.2.2.2
  | passed lock awake =>
    exact h.plain hcode trivial (Local.refl c s) rfl rfl (h.cpu c).off (h.idle hcode nofun) rfl
      fun _ _ hcheck => hcheck.2.2.2
  | @killed q =>
    exact (hkilled q).plain (code_setKilled.trans hcode) trivial (Local.refl c _) rfl rfl
      (h.cpu c).off (h.idle hcode nofun) rfl fun _ _ hcheck => hcheck.2.2
  -- The mark comes first and wakes nobody, then the process is roused.
  | @roused q lock cur asleep =>
    exact ((hkilled q).rouse lock cur (state_setKilled asleep)).plain
      (code_rouse.trans (code_setKilled.trans hcode)) trivial (Local.refl c _) rfl rfl (h.cpu c).off
      (h.idle hcode nofun) rfl fun _ _ hcheck => hcheck.2.2
  -- No processor runs the slot, so the code it gets is nobody else's.
  | started rest unused =>
    exact (h.begin rest).plain ((code_setProc_of_resting rest).trans hcode) trivial (Local.refl c _)
      rfl rfl (h.cpu c).off (h.idle hcode nofun) rfl fun _ _ hcheck => hcheck.2.2
  | occupied =>
    exact h.plain hcode trivial (Local.refl c s) rfl rfl (h.cpu c).off (h.idle hcode nofun) rfl
      fun _ _ hcheck => hcheck.2.2
  | freed rest zombie =>
    exact (h.freeproc rest).plain ((code_setProc_of_resting rest).trans hcode) trivial
      (Local.refl c _) rfl rfl (h.cpu c).off (h.idle hcode nofun) rfl fun _ _ hcheck => hcheck.2.2
  | alive =>
    exact h.plain hcode trivial (Local.refl c s) rfl rfl (h.cpu c).off (h.idle hcode nofun) rfl
      fun _ _ hcheck => hcheck.2.2
  | dispatch cur only noff runnable =>
    obtain ⟨held, -, hmem, -, hst, hme, rfl, hk⟩ := h.holds hcode trivial
    rw [cur, threadState_of_none cur] at hk
    exact h.dispatch cur only noff runnable ⟨rfl, rfl, nofun, hk⟩
  | skip =>
    exact h.plain hcode trivial (Local.refl c s) rfl rfl (h.cpu c).off (h.idle hcode nofun) rfl
      fun _ _ hcheck => hcheck.2.2.2
  | clearProc cur =>
    exact h.flags hcode trivial rfl rfl rfl (h.cpu c).off (Or.inr ⟨rfl, cur⟩) fun _ _ hcheck =>
      hcheck.2.2.2
  | intrOn => exact h.setSie hcode trivial nofun true fun _ hcheck => hcheck.2
  | intrOff => exact h.setSie hcode trivial nofun false fun _ hcheck => hcheck.2
  | sret => exact h.setSie hcode trivial nofun true fun _ hcheck => hcheck.2
  -- Back in user space the processor holds no lock, and its next system call starts from there.
  | userret free =>
    refine h.setSie hcode trivial nofun true fun held hcheck =>
      ⟨hcheck.2.2.1, hcheck.1, hcheck.2.2.1⟩

/-- **What a CPU does next does not panic**, and keeps the invariant. -/
theorem Inv.exec (hkernel : K.Checked rank) (h : Inv K rank s) (c : C) :
    ∃ s', exec K s c = .ok s' ∧ Inv K rank s' := by
  unfold Sched.exec
  cases hcode : s.code c with
  | cons i k =>
    obtain ⟨s', hexec, heff⟩ := h.effect hcode
    exact ⟨s', hexec, heff.inv hkernel h hcode⟩
  | nil =>
    cases hcur : (s.cpu c).cur with
    | some p => exact ⟨s, rfl, h⟩
    | none =>
      obtain ⟨held, hnodup, hmem, hnoff, hcheck⟩ := (h.cpu c).thread
      rw [hcode] at hnoff hcheck
      obtain ⟨-, rfl⟩ := hcheck
      refine ⟨_, rfl, h.next (Local.refl c s) [] hnodup hmem hnoff (h.cpu c).off (fun _ => ?_) ?_⟩
      · rcases (h.cpu c).idle hcur with hnone | ⟨k, hk⟩
        · exact hnone
        · rw [State.code_of_none hcur, hk] at hcode
          cases hcode
      rw [hcur, threadState_of_none hcur]
      exact checked_scheduler K.procs

end

/-! ## Runs -/

/-- The code of a program is checked: what the handlers of interrupts and the processes run. -/
structure Program.Checked (prog : Program P L W A) (K : Kernel P L W A σ) (rank : Lock P L → Nat) :
    Prop where
  kernel : K.Checked rank
  handler : ∀ me code, prog.handler me code → Sched.Checked K rank me .running [] code
  entry : ∀ p code, prog.entry p code → Sched.Checked K rank (some p) .running [] code

/-- **Every step keeps the invariant.** -/
theorem Inv.step {prog : Program P L W A} (hprog : prog.Checked K rank) (h : Inv K rank s)
    {e : Event P L W A C} (hstep : Step K prog s e s') : Inv K rank s' := by
  cases hstep with
  | run hexec =>
    obtain ⟨s₁, hs₁, hinv⟩ := h.exec hprog.kernel _
    rw [hexec] at hs₁
    cases hs₁
    exact hinv
  | @interrupt c handler henabled hkernel hallowed =>
    obtain ⟨held, hnodup, hmem, hnoff, hcheck⟩ := (h.cpu c).thread
    -- Interrupts are on only outside every lock, so the processor holds none and the code it was at
    -- expects none.
    have hzero : (s.cpu c).noff = 0 := by
      by_contra hc
      have hsie := (h.cpu c).off (Nat.pos_of_ne_zero hc)
      rw [henabled] at hsie
      cases hsie
    rw [hzero] at hnoff
    obtain rfl : held = [] := List.length_eq_zero_iff.mp (by omega)
    have hspins : spins (s.code c) = 0 := by omega
    -- Neither can it stand behind an `acquire` or behind `sched`, which both have them off.
    replace hcheck : Checked K rank (s.cpu c).cur (s.threadState c) [] (s.code c) := by
      cases hcode : s.code c with
      | nil =>
        rw [hcode] at hcheck
        exact hcheck
      | cons i k =>
        rw [hcode] at hspins hcheck
        cases i
        case spin l => cases hspins
        case restoreIntena => exact absurd rfl hcheck.2.1
        all_goals exact hcheck
    have hst : s.threadState c = .running := by
      by_contra hc
      obtain ⟨p, -, hp⟩ := hcheck.leaving hc
      cases hp
    -- The scheduler between `swtch` and clearing its process holds that process's lock.
    have hproc : (s.cpu c).proc = (s.cpu c).cur := by
      cases hcur : (s.cpu c).cur with
      | some p => exact ((h.cpu c).home p hcur).1
      | none =>
        rcases (h.cpu c).idle hcur with hnone | ⟨k, hk⟩
        · exact hnone
        · rw [State.code_of_none hcur, hk] at hcheck
          exact absurd rfl hcheck.2.2.1
    have hl : Local c s (s.setCpu c { s.cpu c with sie := false }) := Local.setCpu rfl fun _ _ =>
      ⟨rfl, rfl⟩
    refine h.next hl [] hnodup hmem ?_ (fun _ => ?_) (fun hcur => ?_) ?_
    · rw [State.cpu_setCpu, hzero, List.length_nil]
    · rw [State.cpu_setCpu]
    · rw [State.cpu_setCpu]
      exact hproc.trans hcur
    -- The handler is checked on its own, and the interrupted code again behind it.
    · rw [threadState_congr hl.cur fun _ _ => rfl, hst, ← hproc]
      apply (hprog.handler _ _ hallowed).append
      rw [hproc]
      exact ⟨rfl, rfl, hst ▸ hcheck⟩
  | @enter c p code hcur huser hallowed =>
    obtain ⟨held, hnodup, hmem, hnoff, hcheck⟩ := (h.cpu c).thread
    rw [huser] at hnoff hcheck
    obtain ⟨hst, rfl⟩ := hcheck
    have hl : Local c s (s.setCpu c { s.cpu c with sie := false }) := Local.setCpu rfl fun _ _ =>
      ⟨rfl, rfl⟩
    refine h.next hl [] hnodup hmem ?_ (fun _ => ?_) (fun hnone => ?_) ?_
    · rw [State.cpu_setCpu]
      exact hnoff
    · rw [State.cpu_setCpu]
    · rw [hcur] at hnone
      cases hnone
    · rw [threadState_congr hl.cur fun _ _ => rfl, hst, hcur]
      exact hprog.entry p code hallowed

/-- **What a step does**, where the kernel does not panic: a CPU executes an
instruction; it is in user space; its scheduler begins a round; it takes an interrupt;
or its process enters the kernel. -/
inductive Change (K : Kernel P L W A σ) (prog : Program P L W A) (s : State P L W A C σ) :
    State P L W A C σ → Prop
  | instr {c : C} {i : Instr P L W A} {k : List (Instr P L W A)} {s' : State P L W A C σ}
      (code : s.code c = i :: k) (effect : Effect K s c k i s') : Change K prog s s'
  | user : Change K prog s s
  | round {c : C} (cur : (s.cpu c).cur = none) (code : s.code c = []) :
      Change K prog s (s.setCode c (scheduler K.procs))
  | interrupt {c : C} {handler : List (Instr P L W A)} (enabled : (s.cpu c).sie = true)
      (allowed : prog.handler (s.cpu c).proc handler) :
      Change K prog s ((s.setCpu c { s.cpu c with sie := false }).setCode c (handler ++
        .sret :: s.code c))
  | enter {c : C} {p : P} {code : List (Instr P L W A)} (cur : (s.cpu c).cur = some p)
      (user : s.code c = [])
      (allowed : prog.entry p code) :
      Change K prog s ((s.setCpu c { s.cpu c with sie := false }).setCode c code)

theorem Inv.change_exec {prog : Program P L W A} (h : Inv K rank s)
    (hexec : Sched.exec K s c = .ok s') :
    Change K prog s s' := by
  unfold Sched.exec at hexec
  cases hcode : s.code c with
  | cons i k =>
    rw [hcode] at hexec
    obtain ⟨s₁, hs₁, heff⟩ := h.effect hcode
    obtain rfl := Except.ok.inj (hexec.symm.trans hs₁)
    exact .instr hcode heff
  | nil =>
    rw [hcode] at hexec
    cases hcur : (s.cpu c).cur with
    | some p =>
      rw [hcur] at hexec
      obtain rfl := Except.ok.inj hexec
      exact .user
    | none =>
      rw [hcur] at hexec
      obtain rfl := Except.ok.inj hexec
      exact .round hcur hcode

theorem Inv.change {prog : Program P L W A} (h : Inv K rank s) {e : Event P L W A C}
    (hstep : Step K prog s e s') :
    Change K prog s s' := by
  cases hstep with
  | run hexec => exact h.change_exec hexec
  | interrupt henabled hkernel hallowed => exact .interrupt henabled hallowed
  | enter hcur huser hallowed => exact .enter hcur huser hallowed

/-- The state in which the CPUs enter `scheduler`: no lock is held, and a process that is not
in a free slot is new. -/
structure Boot (s : State P L W A C σ) : Prop where
  lock : ∀ l, s.lock l = none
  cpu : ∀ c, (s.cpu c).proc = none ∧ (s.cpu c).cur = none ∧ (s.cpu c).noff = 0 ∧ (s.cpu c).code = []
  proc : ∀ p, (s.proc p).state = .unused ∧ (s.proc p).code = [] ∨
    (s.proc p).state = .runnable ∧ (s.proc p).code = forkret p

theorem Boot.inv (h : Boot s) : Inv K rank s := by
  refine ⟨fun c => ?_, fun c c' p hc => ?_, fun p _ => ?_⟩
  · obtain ⟨hproc, hcur, hnoff, hcode⟩ := h.cpu c
    refine ⟨Thread.intro [] List.nodup_nil (fun l => ?_) hnoff ?_, fun hpos => ?_, fun p hp => ?_,
      fun _ => Or.inl hproc⟩
    · rw [h.lock l]
      exact ⟨nofun, nofun⟩
    · rw [State.code_of_none hcur, hcode]
      exact ⟨threadState_of_none hcur, rfl⟩
    · rw [hnoff] at hpos
      cases hpos
    · rw [hcur] at hp
      cases hp
  · rw [(h.cpu c).2.1] at hc
    cases hc
  · rcases h.proc p with ⟨hst, -⟩ | ⟨hst, hcode⟩
    · refine ⟨by rw [hst]; exact ProcState.noConfusion, fun hc => ?_⟩
      rw [hst] at hc
      rcases hc with hc | hc <;> cases hc
    · refine ⟨by rw [hst]; exact ProcState.noConfusion, fun _ => ?_⟩
      rw [hcode]
      exact ⟨(checked_forkret p).now.2, rfl⟩

/-- **The invariant holds in every state that is reached.** -/
theorem inv_of_run {prog : Program P L W A} (hprog : prog.Checked K rank) {s₀ : State P L W A C σ}
    {es : List (Event P L W A C)} (hboot : Boot s₀) (hrun : Run (Step K prog) s₀ es s) :
    Inv K rank s :=
  hrun.invariant (I := Inv K rank) (fun _ _ _ h => h.step hprog) hboot.inv

/-- A CPU that holds a lock takes no interrupt. -/
theorem Inv.sie_of_held (h : Inv K rank s) (hlock : s.lock l = some c) : (s.cpu c).sie = false := by
  obtain ⟨held, -, hmem, hnoff, -⟩ := (h.cpu c).thread
  have hpos := List.length_pos_of_mem ((hmem l).mpr hlock)
  exact (h.cpu c).off (by omega)

/-- A CPU waits in `acquire` for a lock that is held. -/
def State.waits (s : State P L W A C σ) (c : C) : Option (Lock P L) :=
  match s.code c with
  | .spin l :: _ => if s.lock l = none then none else some l
  | _ => none

theorem waits_eq_some (h : s.waits c = some l) : (∃ k, s.code c = .spin l :: k) ∧
    ∃ c', s.lock l = some c' := by
  unfold State.waits at h
  split at h
  · next l' k hcode =>
    by_cases hfree : s.lock l' = none
    · rw [if_pos hfree] at h
      cases h
    · rw [if_neg hfree] at h
      obtain rfl := Option.some.inj h
      exact ⟨⟨k, hcode⟩, Option.ne_none_iff_exists'.mp hfree⟩
  · cases h

/-- **Where a CPU waits for a lock, a CPU that holds one does not wait.** -/
theorem Inv.no_deadlock [Finite C] (h : Inv K rank s) (hwaits : s.waits c = some l) :
    ∃ d l', s.lock l' = some d ∧ s.waits d = none := by
  refine exists_holder_not_waiting rank (fun c l l' hw hl => ?_)
    (fun c l hw => (waits_eq_some hw).2) hwaits
  obtain ⟨⟨k, hcode⟩, -⟩ := waits_eq_some hw
  obtain ⟨held, -, hmem, -, hcheck⟩ := (h.cpu c).thread
  rw [hcode] at hcheck
  exact hcheck.2.1 l' ((hmem l').mpr hl)

/-! ## The results -/

/-- What holds of the locks, the CPUs and the process table. -/
structure Sound (K : Kernel P L W A σ) (s : State P L W A C σ) : Prop where
  /-- no CPU panics -/
  no_panic : ∀ c, ∃ s', exec K s c = .ok s'
  /-- `noff` counts the locks that a CPU holds, and the call of `acquire` that it is in;
  interrupts are off then -/
  noff : ∀ c, ∃ held : List (Lock P L), held.Nodup ∧ (∀ l, l ∈ held ↔ s.lock l = some c) ∧
    (s.cpu c).noff = held.length + spins (s.code c) ∧ (0 < (s.cpu c).noff → (s.cpu c).sie = false)
  /-- a process runs on one CPU -/
  once : ∀ c c' p, (s.cpu c).cur = some p → (s.cpu c').cur = some p → c = c'
  /-- a process whose lock is free is `RUNNING` when a CPU runs it -/
  running : ∀ p, s.lock (.proc p) = none → ((s.proc p).state = .running ↔
    ∃ c, (s.cpu c).cur = some p)
  /-- CPUs that wait for locks wait for one that does not -/
  no_deadlock : ∀ c, s.waits c ≠ none → ∃ d l, s.lock l = some d ∧ s.waits d = none

theorem Inv.sound [Finite C] (hkernel : K.Checked rank) (h : Inv K rank s) : Sound K s where
  no_panic c := by
    obtain ⟨s', hs', -⟩ := h.exec hkernel c
    exact ⟨s', hs'⟩
  noff c := by
    obtain ⟨held, hnodup, hmem, hnoff, -⟩ := (h.cpu c).thread
    exact ⟨held, hnodup, hmem, hnoff, (h.cpu c).off⟩
  once := h.once
  running p hfree := by
    constructor
    · intro hst
      by_contra hc
      exact (h.resting p fun c hcur => hc ⟨c, hcur⟩).state hst
    · rintro ⟨c, hcur⟩
      by_contra hst
      rw [h.leaving hcur hst] at hfree
      cases hfree
  no_deadlock c hc := by
    obtain ⟨l, hl⟩ := Option.ne_none_iff_exists'.mp hc
    exact h.no_deadlock hl

/-- **The locks and the scheduler are sound in every state that is reached**, whatever the threads
do with their locks as long as their code is checked. -/
theorem sched_sound [Finite C] {prog : Program P L W A} (hprog : prog.Checked K rank)
    {s₀ : State P L W A C σ}
    {es : List (Event P L W A C)} (hboot : Boot s₀) (hrun : Run (Step K prog) s₀ es s) :
    Sound K s :=
  (inv_of_run hprog hboot hrun).sound hprog.kernel

/-- The numerals of `Fin 2`. -/
scoped instance neZero_two : @NeZero Nat Zero.ofOfNat0 2 := ⟨Nat.succ_ne_zero 1⟩

/-- Two processes that only compute. -/
def computing : Kernel (Fin 2) Unit Unit Unit Unit where
  procs := [0, 1]
  perform _ _ d := d
  cond _ _ := false
  guard _ := ()

/-- The interrupts of the timer, in user space. -/
def preempted : Program (Fin 2) Unit Unit Unit where
  handler _ code := code = []
  entry p code := code = yield p ++ [.intrOff, .userret]

instance (me : Option (Fin 2)) (code : List (Instr (Fin 2) Unit Unit Unit)) :
    Decidable (preempted.handler me code) :=
  inferInstanceAs (Decidable (code = []))

instance (p : Fin 2) (code : List (Instr (Fin 2) Unit Unit Unit)) :
    Decidable (preempted.entry p code) :=
  inferInstanceAs (Decidable (code = yield p ++ [.intrOff, .userret]))

/-- The locks of the processes come after all others. -/
def lastRank : Lock P L → Nat
  | .proc _ => 1
  | .other _ => 0

theorem computing_checked : computing.Checked lastRank where
  order _ _ := Nat.one_pos
  round _ _ _ _ h := h

theorem preempted_checked : preempted.Checked computing lastRank where
  kernel := computing_checked
  handler me code h := by
    obtain rfl := h
    exact ⟨rfl, rfl⟩
  entry p code h := by
    obtain rfl := h
    exact checked_yield ⟨rfl, rfl, rfl, rfl, rfl, rfl, rfl⟩

/-- Two CPUs enter `scheduler`, with one process. -/
def bootOne : State (Fin 2) Unit Unit Unit (Fin 2) Unit where
  lock _ := none
  proc p := if p = 0 then { state := .runnable, code := forkret 0 } else {}
  cpu _ := {}
  data := ()

theorem boot_bootOne : Boot bootOne where
  lock _ := rfl
  cpu _ := ⟨rfl, rfl, rfl, rfl⟩
  proc p := by
    by_cases hp : p = 0
    · subst hp
      exact Or.inr ⟨rfl, rfl⟩
    · exact Or.inl (by simp [bootOne, hp])

/-- The process runs on the first CPU, the timer interrupts it, and it goes on on the second. -/
def migrate : List (Event (Fin 2) Unit Unit Unit (Fin 2)) :=
  [List.replicate 9 (.run 0), [.enter 0 (yield 0 ++ [.intrOff, .userret])],
    List.replicate 7 (.run 0), List.replicate 8 (.run 1)].flatten

set_option maxRecDepth 100000 in
theorem sched_sound_migrated : ∃ s, Run (Step computing preempted) bootOne migrate s ∧
    (s.cpu 1).cur = some 0 ∧
    Sound computing s := by
  have hsome : ((Run.after (State.next computing preempted) migrate bootOne).map
      fun s => decide ((s.cpu 1).cur = some 0)) = some true := by
    decide +kernel
  obtain ⟨s, hs, htest⟩ := Option.map_eq_some_iff.mp hsome
  have hrun : Run.Meets (Step computing preempted) (fun _ _ => True) bootOne ([] ++ migrate) s :=
    Run.meets_of_after (fun s e s' h => ⟨trivial,
      (step_of_next computing h : Step computing preempted s e s')⟩) migrate (.nil bootOne) hs
  exact ⟨s, hrun.run, of_decide_eq_true htest, sched_sound preempted_checked boot_bootOne hrun.run⟩

end Xv6.Sched
