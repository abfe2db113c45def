import OsnMp2.Kernel.References

/-!
# The system in small steps

The kernel copies, `wait` and a trap that ends a process are made of several changes: page
faults, writes to single pages, the end of a process, the freeing of another one. Here each of
them is a step of its own, so that a property of all page faults can be stated, and proved,
once. Every step of the system is a run of small steps, and every state that is reachable is
reachable in small steps.

What a small step does is said slot by slot: most slots are left alone, and the others have one of
the outcomes of the function that was called.

## Main definitions

* `Op`, `Move`, `SmallStep`: the small steps
* `SmallReachable`: the states that they reach from the booted kernel
* `SlotStep`: what a small step does to one process slot
* `EveryTask`, `Stable`, `Preserved`: properties of processes, and what a small step must keep of
  them
* `Follows`, `Follow`: one process and its children, along a run
* `nextOp`: the state after a small step, computed

## Main results

* `Step.small`, `Reachable.small`: the system steps are runs of small steps
* `SmallStep.slots`: every small step has one of its outcomes on each slot
* `EveryTask.step`, `everyTask_of_meets`: the invariant rule, for a step and for a run
* `Follow.of_meets`: the invariant rule for one process
-/

namespace Xv6

variable {k k' k'' : Kernel} {own own' : Nat → Set Frame} {i j : Nat} {root tf : Frame}
  {t t' : Task} {o o' : Set Frame}

/-- What a process does in one small step: a page fault, with a number of spinlocks held
besides; a write to one page; the end of a system call or of the process; or a system
call that runs through. -/
inductive Op
  | fault (va : Nat) (isWrite isExec : Bool) (locks : Nat)
  | write (va : Nat) (bytes : List UInt8)
  | kill
  | sbrk (n : Int)
  | fork
  | exec (path : List UInt8) (argv : List (List UInt8))
  | exit (status : Int)
  | reap (j : Nat)

/-- A small step of the process in slot `i`, or a change by the rest of the kernel. -/
inductive Move
  | op (i : Nat) (o : Op)
  | others

/-- The effect of a small step of the process in slot `i`. -/
inductive Op.Does (i : Nat) (k : Kernel) : Op → Kernel → Prop
  | fault {va locks : Nat} {isWrite isExec : Bool} {r : Int} {k' : Kernel}
      (run : onTask i (fun fs => demandPageLoadNew { fs with noff := fs.noff + locks } va
        isWrite isExec) k = .ok (r, k')) : Op.Does i k (.fault va isWrite isExec locks) k'
  | write {va : Nat} {bytes : List UInt8} {root : Frame} {e : Pte}
      (pagetable : (k.procs i).pagetable = some root) (low : va < maxVa)
      (mapped : k.mem.lookup root va = some e) (user : e.perm.u = true) (writable : e.perm.w = true)
      (page : va % pgSize + bytes.length ≤ pgSize) :
      Op.Does i k (.write va bytes)
        (k.setTask i ⟨k.mem.setBytes e.ppn (va % pgSize) bytes, k.procs i⟩)
  | kill {k' : Kernel} (run : updProc i (fun p => { p with killed := true }) k = .ok ((), k')) :
      Op.Does i k .kill k'
  | sbrk {n r : Int} {k' : Kernel} (int : -2 ^ 31 ≤ n ∧ n < 2 ^ 31)
      (run : onTask i (fun _ => growproc n) k = .ok (r, k')) : Op.Does i k (.sbrk n) k'
  | fork {r : Int} {k' : Kernel} (run : kfork i k = .ok (r, k')) : Op.Does i k .fork k'
  | exec {path : List UInt8} {argv : List (List UInt8)} {r : Int} {k' : Kernel}
      (argvOk : ArgvOk argv) (run : Xv6.exec i path argv k = .ok (r, k')) :
      Op.Does i k (.exec path argv) k'
  | exit {status : Int} {k' : Kernel} (run : kexit i status k = .ok ((), k')) :
      Op.Does i k (.exit status) k'
  | reap {j : Nat} {k' : Kernel} (zombie : (k.procs j).state = .zombie)
      (parent : (k.procs j).parent = some i) (run : freeproc j k = .ok ((), k')) :
      Op.Does i k (.reap j) k'

/-- **The small steps.** -/
inductive SmallStep (k : Kernel) : Move → Kernel → Prop
  | op {i : Nat} {o : Op} {k' : Kernel} (runnable : (k.procs i).state = .runnable)
      (does : o.Does i k k') : SmallStep k (.op i o) k'
  | others {k' : Kernel} (change : Others k k') : SmallStep k .others k'

/-- **The states reachable in small steps.** -/
def SmallReachable (k : Kernel) : Prop :=
  ∃ k₀ k₁ ms, Boot k₀ ∧ userinit k₀ = .ok ((), k₁) ∧ Run SmallStep k₁ ms k

/-! ## Every step is a run of small steps -/

theorem setTask_setTask (k : Kernel) (i : Nat) (t t' : Task) :
    (k.setTask i t).setTask i t' = k.setTask i t' := by
  simp only [Kernel.setTask, Function.update_idem]

theorem task_setTask (k : Kernel) (i : Nat) (t : Task) : (k.setTask i t).task i = t := by
  simp only [Kernel.setTask, Kernel.task, Function.update_self]

theorem setTask_task (k : Kernel) (i : Nat) : k.setTask i (k.task i) = k := by
  simp only [Kernel.setTask, Kernel.task, Function.update_eq_self]

theorem setTask_state (k : Kernel) (i : Nat) (t : Task) :
    ((k.setTask i t).procs i).state = t.p.state := by
  simp only [Kernel.setTask, Function.update_self]

theorem setTask_other (k : Kernel) (t : Task) (h : j ≠ i) : (k.setTask i t).procs j = k.procs j :=
  Function.update_of_ne h ..

/-- The task `t` is reached by small steps of process `i` on its own memory. -/
structure Reaches (k : Kernel) (i : Nat) (root tf : Frame) (o : Set Frame) (t : Task) : Prop where
  step : ∃ o', TaskStep (k.task i) root tf o t o'
  run : ∃ ms, Run SmallStep k ms (k.setTask i t)

theorem Reaches.refl (h : TaskOk (k.task i) root tf o) : Reaches k i root tf o (k.task i) := by
  refine ⟨⟨o, TaskStep.refl h⟩, [], ?_⟩
  rw [setTask_task]
  exact .nil k

section Reaches

variable (hr : (k.procs i).state = .runnable)
include hr

theorem Reaches.runnable (h : Reaches k i root tf o t) :
    ((k.setTask i t).procs i).state = .runnable := by
  obtain ⟨o', hs⟩ := h.step
  rw [setTask_state, hs.image.state]
  exact hr

theorem Reaches.fault (locks : Nat) {va : Nat} {w x : Bool} {r : Int}
    (h : Reaches k i root tf o t)
    (hf : demandPageLoadNew { k.fs with noff := k.fs.noff + locks } va w x t = .ok (r, t')) :
    Reaches k i root tf o t' := by
  obtain ⟨o₁, hs⟩ := h.step
  obtain ⟨o₂, hs₂⟩ := TaskStep.fault hs.task hf
  obtain ⟨ms, hrun⟩ := h.run
  refine ⟨⟨o₂, hs.trans hs₂⟩, _, hrun.snoc (e := .op i (.fault va w x locks)) (.op (h.runnable hr)
    (.fault (r := r) (onTask_eq_ok.mpr ⟨t', ?_, (setTask_setTask k i t t').symm⟩)))⟩
  rw [task_setTask]
  exact hf

theorem Reaches.write {va : Nat} {bytes : List UInt8} {e : Pte} (h : Reaches k i root tf o t)
    (hva : va < maxVa) (he : t.mem.lookup root va = some e) (hu : e.perm.u = true)
    (hw : e.perm.w = true) (hpage : va % pgSize + bytes.length ≤ pgSize) :
    Reaches k i root tf o ⟨t.mem.setBytes e.ppn (va % pgSize) bytes, t.p⟩ := by
  obtain ⟨o₁, hs⟩ := h.step
  obtain ⟨ms, hrun⟩ := h.run
  have hstep : Op.Does i (k.setTask i t) (.write va bytes) _ :=
    .write (by simpa [Kernel.setTask] using hs.task.pagetable) hva he hu hw hpage
  have hp : (k.setTask i t).procs i = t.p := congrArg Task.p (task_setTask k i t)
  rw [setTask_setTask, hp] at hstep
  exact ⟨⟨o₁, hs.trans (TaskStep.setBytes hs.task he hu _ _)⟩, _,
    hrun.snoc (.op (h.runnable hr) hstep)⟩

/-- **`copyout`** is a run of page faults and writes. -/
theorem Reaches.copyout (locks : Nat) {dst : Nat} {src : List UInt8} {r : Int}
    (h : TaskOk (k.task i) root tf o)
    (hrun : Xv6.copyout { k.fs with noff := k.fs.noff + locks } root dst src (k.task i) =
      .ok (r, t)) :
    Reaches k i root tf o t := by
  unfold Xv6.copyout at hrun
  obtain ⟨⟨r', rest⟩, t₁, hloop, hrun⟩ := Halting.bind_eq_ok.mp hrun
  obtain ⟨-, rfl⟩ := Halting.pure_eq_ok.mp hrun
  obtain ⟨⟨_, hreach⟩, -⟩ := copyout_induct (I := fun _ _ t => Reaches k i root tf o t)
    (fun _ _ _ _ _ hreach _ _ _ hf => hreach.fault hr locks hf)
    (fun t₁ d s e hreach _ hlow he hu hw => by
      have hoff : d - pgRoundDown d = d % pgSize := by
        simp only [pgRoundDown, pgSize]
        omega
      have hmax : d < maxVa := by
        simp only [pgRoundDown, maxVa, pgSize] at hlow ⊢
        omega
      rw [hoff]
      refine hreach.write hr hmax ((lookup_pgRoundDown _ _ _).symm.trans he) hu hw ?_
      rw [List.length_take, inPage, ← hoff]
      simp only [pgRoundDown, pgSize]
      omega)
    _ (Reaches.refl h) hloop
  exact hreach

/-- **`copyin`** is a run of page faults. -/
theorem Reaches.copyin {src len : Nat} {r : Int × List UInt8} (h : TaskOk (k.task i) root tf o)
    (hrun : Xv6.copyin k.fs root src len (k.task i) = .ok (r, t)) : Reaches k i root tf o t := by
  obtain ⟨_, _, hreach, -⟩ := copyin_induct (I := fun _ _ _ t => Reaches k i root tf o t)
    (fun _ _ _ _ _ _ hreach _ _ _ hf => hreach.fault hr 0 hf)
    (fun _ _ _ _ _ hreach _ _ _ _ => hreach) _ (Reaches.refl h) hrun
  exact hreach

end Reaches

/-- **Every step of the system is a run of small steps.** -/
theorem Step.small {e : Event} (h : SysInv k own) (hs : Step k e k') :
    ∃ ms, Run SmallStep k ms k' := by
  cases hs with
  | others change => exact ⟨_, (Run.nil k).snoc (.others change)⟩
  | act hr does =>
    rename_i i a
    obtain ⟨root, tf, o, hroot, ho, htf, htask⟩ := h.runnable hr
    -- what is one small step
    have hone : ∀ {op : Op}, op.Does i k k' → ∃ ms, Run SmallStep k ms k' := fun hd =>
      ⟨_, (Run.nil k).snoc (.op hr hd)⟩
    cases does with
    | fault run =>
      unfold usertrapFault at run
      obtain ⟨r, k₁, hon, run⟩ := Halting.bind_eq_ok.mp run
      obtain ⟨t, hf, rfl⟩ := onTask_eq_ok.mp hon
      have hreach := (Reaches.refl htask).fault hr 0 hf
      obtain ⟨ms, hrun⟩ := hreach.run
      split at run
      · obtain ⟨-, rfl⟩ := Halting.pure_eq_ok.mp run
        exact ⟨ms, hrun⟩
      · -- the process is killed and exits
        obtain ⟨_, k₂, hup, run⟩ := Halting.bind_eq_ok.mp run
        have hrun₂ := hrun.snoc (.op (hreach.runnable hr) (.kill hup))
        rw [updProc_apply] at hup
        cases hup
        refine ⟨_, hrun₂.snoc (.op ?_ (.exit run))⟩
        simpa using hreach.runnable hr
    | store run =>
      obtain ⟨e, hva, he, hu, hw, rfl⟩ := userStore_spec htask.pagetable run
      exact ((Reaches.refl htask).write hr hva he hu hw
        (by simp only [List.length_singleton, pgSize]; omega)).run
    | copyin run =>
      obtain ⟨t, hrun, rfl⟩ := onTask_eq_ok.mp run
      rw [Halting.bind_of_ok (pagetableOf_apply hroot)] at hrun
      exact (Reaches.copyin hr htask hrun).run
    | copyout run =>
      obtain ⟨t, hrun, rfl⟩ := onTask_eq_ok.mp run
      rw [Halting.bind_of_ok (pagetableOf_apply hroot)] at hrun
      exact (Reaches.copyout hr 0 htask hrun).run
    | sbrk int run => exact hone (.sbrk int run)
    | fork run => exact hone (.fork run)
    | exec argvOk run => exact hone (.exec argvOk run)
    | exit run => exact hone (.exit run)
    | wait run =>
      obtain ⟨k₁, own₁, hs, hother, hwhich, hk⟩ := kwait_spec h hr run
      have hrun : ∃ ms, Run SmallStep k ms k₁ ∧ (k₁.procs i).state = .runnable := by
        rcases hwhich with rfl | ⟨root', rc, t, src, hroot', -, -, hout, rfl⟩
        · exact ⟨[], .nil _, hr⟩
        · obtain rfl := Option.some.inj (hroot.symm.trans hroot')
          have hreach := Reaches.copyout hr 2 htask hout
          obtain ⟨ms, hms⟩ := hreach.run
          exact ⟨ms, hms, hreach.runnable hr⟩
      obtain ⟨ms, hrun, hr₁⟩ := hrun
      rcases hk with ⟨-, rfl⟩ | ⟨j, hj, hz, hpar, -, hfree⟩
      · exact ⟨ms, hrun⟩
      · rw [← (hother j hj).2] at hz hpar
        exact ⟨_, hrun.snoc (.op hr₁ (.reap hz hpar hfree))⟩

/-- **Every reachable state is reachable in small steps.** -/
theorem Reachable.small (h : Reachable k) : SmallReachable k := by
  obtain ⟨k₀, k₁, es, hboot, hinit, hrun⟩ := h
  obtain ⟨_, _, own, hstep, -⟩ := userinit_spec hboot.sysInv hinit
  obtain ⟨-, ms, hms⟩ := hrun.invariant
    (I := fun k => (∃ own, SysInv k own) ∧ ∃ ms, Run SmallStep k₁ ms k)
    (fun k e k' ⟨⟨own, hinv⟩, ms, hms⟩ hs => by
      obtain ⟨_, own', _, hs'⟩ := hinv.step hs
      obtain ⟨ms', hms'⟩ := Step.small hinv hs
      exact ⟨⟨own', hs'.inv⟩, _, hms.append hms'⟩)
    ⟨⟨own, hstep.inv⟩, [], .nil k₁⟩
  exact ⟨k₀, k₁, ms, hboot, hinit, hms⟩

/-! ## What a small step does to each slot -/

/-- The fields of a process that page faults and the system calls on its memory read and change: all
but its state, its parent, its files and its directory. -/
def Proc.paging (p : Proc) : Proc :=
  { p with state := .unused, killed := false, xstate := 0, parent := none, ofile := fun _ => none,
           cwd := none }

/-- **What a small step does to the process slot `j`.** -/
inductive SlotStep (k : Kernel) (own : Nat → Set Frame) (k' : Kernel) (own' : Nat → Set Frame)
    (j : Nat) : Move → Prop
  /-- its memory and what describes it are as they were -/
  | same {m : Move} (paging : (k'.procs j).paging = (k.procs j).paging) (owned : own' j = own j)
      (phys : ∀ a ∈ own j, k'.mem.phys a = k.mem.phys a) : SlotStep k own k' own' j m
  /-- the slot has no address space -/
  | gone {m : Move} (pagetable : (k'.procs j).pagetable = none) : SlotStep k own k' own' j m
  | fault {va locks : Nat} {w x : Bool} {r : Int} {root tf : Frame} {o o' : Set Frame}
      (task : TaskOk (k.task j) root tf o) (task' : TaskOk (k'.task j) root tf o')
      (run : demandPageLoadNew { k.fs with noff := k.fs.noff + locks } va w x (k.task j) =
        .ok (r, k'.task j))
      (out : Fault { k.fs with noff := k.fs.noff + locks } (k.task j) va w root o r (k'.task j)
       o') :
      SlotStep k own k' own' j (.op j (.fault va w x locks))
  | write {va : Nat} {bytes : List UInt8} {root tf : Frame} {o : Set Frame} {e : Pte}
      (task : TaskOk (k.task j) root tf o) (low : va < maxVa) (mapped : k.mem.lookup root va =
       some e)
      (user : e.perm.u = true) (writable : e.perm.w = true)
      (page : va % pgSize + bytes.length ≤ pgSize)
      (after : k'.task j = ⟨k.mem.setBytes e.ppn (va % pgSize) bytes, k.procs j⟩) :
      SlotStep k own k' own' j (.op j (.write va bytes))
  | sbrk {n r : Int} {root tf : Frame} {o o' : Set Frame} (int : -2 ^ 31 ≤ n ∧ n < 2 ^ 31)
      (task : TaskOk (k.task j) root tf o) (task' : TaskOk (k'.task j) root tf o')
      (out : Grow n (k.task j) root o r (k'.task j) o') : SlotStep k own k' own' j (.op j (.sbrk n))
  | exec {path : List UInt8} {argv : List (List UInt8)} {r : Int} {k₁ : Kernel} {ip : Nat}
      {root tf : Frame} {o : Set Frame} (task : TaskOk (k.task j) root tf o)
      (opened : Opened k j path ip k₁) (out : ExecOut k₁.fs ip argv (k.task j) root tf o r
       (k'.task j)) :
      SlotStep k own k' own' j (.op j (.exec path argv))
  /-- a new process, the child of the one in slot `i` -/
  | child {i : Nat} {root tf root' tf' : Frame} {o : Set Frame} (ne : j ≠ i)
      (unused : (k.procs j).state = .unused) (parent : TaskOk (k.task i) root tf o)
      (proc : k'.procs j = newChild k i j tf' root')
      (content : ∀ ip, k'.fs.content ip = k.fs.content ip)
      (copy : ∀ va, va < maxVa → va / pgSize < ((k.procs i).sz + (pgSize - 1)) / pgSize →
        CopyOf k.mem (k.mem.lookup root va) k'.mem (k'.mem.lookup root' va))
      (rest : ∀ va, va < trapframeVa → ¬ va / pgSize < ((k.procs i).sz + (pgSize - 1)) / pgSize →
        k'.mem.lookup root' va = none) :
      SlotStep k own k' own' j (.op i .fork)

/-- A slot that a system step leaves alone. -/
theorem SysStep.slot_same {A : Set Nat} {lost : Set Frame} {m : Move}
    (hs : SysStep A k own k' own' lost) (hj : j ∉ A)
    (hpaging : (k'.procs j).paging = (k.procs j).paging) : SlotStep k own k' own' j m := by
  obtain ⟨hown, -, hphys⟩ := hs.other j hj
  exact .same hpaging hown hphys

/-- A system step of the process in slot `i` on its task. -/
theorem SysStep.slots_setTask {lost : Set Frame} {m : Move}
    (hs : SysStep {i} k own (k.setTask i t) own' lost)
    (hself : SlotStep k own (k.setTask i t) own' i m) (j : Nat) :
    SlotStep k own (k.setTask i t) own' j m := by
  by_cases hj : j = i
  · exact hj ▸ hself
  · exact hs.slot_same hj (congrArg Proc.paging (setTask_other k t hj))

/-- **Every small step keeps the system invariant**, and has one of its outcomes on each slot. -/
theorem SmallStep.slots {m : Move} (h : SysInv k own) (hs : SmallStep k m k') :
    ∃ own', SysInv k' own' ∧ ∀ j, SlotStep k own k' own' j m := by
  cases hs with
  | others change =>
    have hstep := h.others change
    refine ⟨own, hstep.inv, fun j => hstep.slot_same (Set.notMem_empty j) ?_⟩
    obtain ⟨_, _, hj⟩ := change.procs j
    rw [hj]
    rfl
  | op hr does =>
    rename_i i o
    obtain ⟨root, tf, o, hroot, ho, htf, htask⟩ := h.runnable hr
    cases does with
    | fault run =>
      obtain ⟨t, hf, rfl⟩ := onTask_eq_ok.mp run
      obtain ⟨o', htask', hacts, hout⟩ := htask.fault hf
      have hstep := h.taskStep ho htf hr ⟨htask', hacts, hout.sameImage⟩
      exact ⟨_, hstep.inv, hstep.slots_setTask (.fault htask (by rwa [task_setTask])
        (by rwa [task_setTask]) (by rwa [task_setTask]))⟩
    | write pagetable low mapped user writable page =>
      rename_i va bytes root₁ e
      obtain rfl := Option.some.inj (hroot.symm.trans pagetable)
      have hstep := h.taskStep ho htf hr (TaskStep.setBytes htask mapped user (va % pgSize) bytes)
      exact ⟨_, hstep.inv, hstep.slots_setTask
        (.write htask low mapped user writable page (task_setTask ..))⟩
    | kill run =>
      have hstep := h.quiet (quiet_updProc (f := fun p => { p with killed := true })
        (fun p => ⟨rfl, rfl, rfl, rfl, rfl⟩) (fun p => Or.inl rfl) i _ _ _ run)
      refine ⟨_, hstep.inv, fun j => hstep.slot_same (Set.notMem_empty j) ?_⟩
      rw [updProc_apply] at run
      cases run
      dsimp only
      by_cases hj : j = i
      · subst hj
        rw [Function.update_self]
        rfl
      · rw [Function.update_of_ne hj]
    | sbrk int run =>
      obtain ⟨t, hrun, rfl⟩ := onTask_eq_ok.mp run
      obtain ⟨o', htask', hacts, hgrow⟩ := htask.growproc hrun
      have hstate : t.p.state = .runnable := by
        cases hgrow <;> exact hr
      have hstep := h.setTask ho htf hacts htask' hstate
      exact ⟨_, hstep.inv, hstep.slots_setTask (.sbrk int htask (by rwa [task_setTask])
        (by rwa [task_setTask]))⟩
    | fork run =>
      cases kfork_spec h hr run with
      | failed step same =>
        refine ⟨own, step.inv, fun j => ?_⟩
        rcases kfork_effect (by rw [hr]; decide) run with ⟨hab, -⟩ | ⟨l, tf', root', hl,
          hun, hprocs, -⟩
        · rcases hab j with heq | hidle
          · by_cases hu : (k.procs j).state = .unused
            · refine .same (by rw [heq]) rfl fun a ha => ?_
              rw [(h.idle hu).1] at ha
              exact absurd ha (Set.notMem_empty a)
            · exact step.slot_same hu (by rw [heq])
          · exact .gone ((step.inv.state j).unused hidle.after).1
        · -- the child of a failed fork would own nothing
          exfalso
          have hnone := step.inv.pagetable_none ((h.idle hun).1)
          rw [hprocs, Function.update_self] at hnone
          cases hnone
      | child ne unused parent step procs content copy rest =>
        rename_i j root₁ root' tf' o'
        obtain rfl := Option.some.inj (hroot.symm.trans parent)
        refine ⟨_, step.inv, fun l => ?_⟩
        by_cases hl : l = j
        · subst hl
          exact .child ne unused htask (by rw [procs, Function.update_self]) content copy rest
        · exact step.slot_same hl (by rw [procs, Function.update_of_ne hl])
    | exec argvOk run =>
      have hex := exec_spec h hr argvOk run
      obtain ⟨own', lost, hstep, -⟩ := h.exec hr hex
      cases hex with
      | noFile missing quiet =>
        have hstep := h.quiet quiet.inert.quiet
        exact ⟨own, hstep.inv, fun j => hstep.slot_same (Set.notMem_empty j) (by rw [quiet.procs])⟩
      | image opened ho₁ htf₁ htask₁ out closed =>
        rename_i k₁ ip t root₁ tf₁ o₁
        refine ⟨own', hstep.inv, fun j => ?_⟩
        have hprocs : k'.procs = Function.update k.procs i t.p := by
          rw [closed.procs, ← opened.procs]
          rfl
        have htask' : k'.task i = t := by
          rw [Kernel.task, show k'.mem = t.mem from closed.mem, hprocs, Function.update_self]
        by_cases hj : j = i
        · subst hj
          exact .exec htask₁ opened (by rw [htask']; exact out)
        · exact hstep.slot_same hj (by rw [hprocs, Function.update_of_ne hj])
    | exit run =>
      have hstep := h.quiet (quiet_kexit i _ _ _ _ run)
      refine ⟨own, hstep.inv, fun j => hstep.slot_same (Set.notMem_empty j) ?_⟩
      obtain ⟨files, -, hprocs, -⟩ := kexit_effect run
      obtain ⟨q, hq⟩ := hprocs j
      rw [hq]
      split
      · next hji => subst hji; rfl
      · rfl
    | reap zombie parent run =>
      rename_i l
      have hstep := h.freeproc run
      refine ⟨_, hstep.inv, fun j => ?_⟩
      by_cases hj : j = l
      · subst hj
        exact .gone (freeproc_spec h run).2.2.1
      · exact hstep.slot_same hj (by rw [(freeproc_effect run).procs, Function.update_of_ne hj])

/-! ## Invariants of the processes -/

/-- The page table `root` shows the same pages with the same bytes in both tasks, and the processes
have the same paging metadata. -/
structure SameView (root : Frame) (t t' : Task) : Prop where
  paging : t'.p.paging = t.p.paging
  lookup : ∀ va, t'.mem.lookup root va = t.mem.lookup root va
  byte : ∀ va e, t.mem.lookup root va = some e → e.perm.u = true →
    (t'.mem.phys e.ppn).byte = (t.mem.phys e.ppn).byte

/-- A slot that a small step leaves alone shows the same view. -/
theorem SysInv.sameView (h : SysInv k own) (hp : (k'.procs j).pagetable = some root)
    (hpaging : (k'.procs j).paging = (k.procs j).paging)
    (hphys : ∀ a ∈ own j, k'.mem.phys a = k.mem.phys a) : SameView root (k.task j) (k'.task j) := by
  have hpt : (k.procs j).pagetable = some root := (congrArg Proc.pagetable hpaging).symm.trans hp
  obtain ⟨tf, o, ho, -, htask⟩ := h.live hpt
  have hown : ∀ a ∈ o, k'.mem.phys a = k.mem.phys a := fun a ha =>
    hphys a (by rw [ho]; exact Set.mem_insert_of_mem _ ha)
  refine ⟨hpaging, fun va => htask.space.lookup_congr (fun a ha => ?_) va, fun va e he hu => ?_⟩
  · show (k'.mem.phys a).pte = (k.mem.phys a).pte
    rw [hown a ha]
  · show (k'.mem.phys e.ppn).byte = (k.mem.phys e.ppn).byte
    rw [hown _ (htask.space.lookup_own he hu)]

/-- A property of every process that has a page table. -/
def EveryTask (P : Task → Frame → Prop) (k : Kernel) : Prop :=
  ∀ j root, (k.procs j).pagetable = some root → P (k.task j) root

/-- What the invariant rule asks of a property of the process in slot `j`, for a small step from `k`
to `k'` that is not an `exec` of this process: it depends on the view of a process only, and each
outcome of the functions called preserves it. -/
structure Stable (P : Task → Frame → Prop) (k : Kernel) (m : Move) (k' : Kernel) (j : Nat) :
    Prop where
  congr : ∀ root t t', SameView root t t' → P t root → P t' root
  fault : ∀ va locks w x r root tf o o', m = .op j (.fault va w x locks) →
    TaskOk (k.task j) root tf o → TaskOk (k'.task j) root tf o' →
    demandPageLoadNew { k.fs with noff := k.fs.noff + locks } va w x (k.task j) = .ok (r,
      k'.task j) →
    Fault { k.fs with noff := k.fs.noff + locks } (k.task j) va w root o r (k'.task j) o' →
    P (k.task j) root → P (k'.task j) root
  write : ∀ va bytes root tf o e, m = .op j (.write va bytes) → TaskOk (k.task j) root tf o →
    va < maxVa → k.mem.lookup root va = some e → e.perm.u = true → e.perm.w = true →
    va % pgSize + bytes.length ≤ pgSize → P (k.task j) root →
    P ⟨k.mem.setBytes e.ppn (va % pgSize) bytes, k.procs j⟩ root
  sbrk : ∀ n r root tf o o', m = .op j (.sbrk n) → -2 ^ 31 ≤ n ∧ n < 2 ^ 31 →
    TaskOk (k.task j) root tf o → TaskOk (k'.task j) root tf o' →
    Grow n (k.task j) root o r (k'.task j) o' → P (k.task j) root → P (k'.task j) root
  child : ∀ i root root' tf tf' o, m = .op i .fork → (k.procs j).state = .unused →
    TaskOk (k.task i) root tf o → k'.procs j = newChild k i j tf' root' →
    (∀ va, va < maxVa → va / pgSize < ((k.procs i).sz + (pgSize - 1)) / pgSize →
      CopyOf k.mem (k.mem.lookup root va) k'.mem (k'.mem.lookup root' va)) →
    (∀ va, va < trapframeVa → ¬ va / pgSize < ((k.procs i).sz + (pgSize - 1)) / pgSize →
      k'.mem.lookup root' va = none) →
    P (k.task i) root → P (k'.task j) root'

/-- What the invariant rule asks of a property of every process, for the small step from `k` to
`k'`. -/
structure Preserved (P : Task → Frame → Prop) (k : Kernel) (m : Move) (k' : Kernel) : Prop where
  stable : ∀ j, Stable P k m k' j
  exec : ∀ j path argv r k₁ ip root root' tf o, m = .op j (.exec path argv) →
    TaskOk (k.task j) root tf o → Opened k j path ip k₁ →
    ExecOut k₁.fs ip argv (k.task j) root tf o r (k'.task j) →
    (k'.procs j).pagetable = some root' → P (k.task j) root → P (k'.task j) root'

/-- **The invariant rule for one slot**, in a step that is not an `exec` of its
process. The property is asked of the process in the slot, if there was one, and of the
parent of a new process. -/
theorem Stable.slot {P : Task → Frame → Prop} {m : Move} {root' : Frame} (hp : Stable P k m k' j)
    (hinv : SysInv k own) (hslot : SlotStep k own k' own' j m)
    (hexec : ∀ path argv, m ≠ .op j (.exec path argv)) (hpt : (k'.procs j).pagetable = some root')
    (h : ∀ root, (k.procs j).pagetable = some root → P (k.task j) root)
    (hparent : (k.procs j).pagetable = none →
      ∀ i root, m = .op i .fork → (k.procs i).pagetable = some root → P (k.task i) root) :
    P (k'.task j) root' := by
  cases hslot with
  | same paging owned phys =>
    have hpt₀ : (k.procs j).pagetable = some root' :=
      (congrArg Proc.pagetable paging).symm.trans hpt
    exact hp.congr _ _ _ (hinv.sameView hpt paging phys) (h root' hpt₀)
  | gone pagetable =>
    rw [hpt] at pagetable
    cases pagetable
  | fault task task' run out =>
    obtain rfl := Option.some.inj (hpt.symm.trans task'.pagetable)
    exact hp.fault _ _ _ _ _ _ _ _ _ rfl task task' run out (h root' task.pagetable)
  | write task low mapped user writable page after =>
    have hpt₀ : (k.procs j).pagetable = some root' :=
      (congrArg (·.p.pagetable) after).symm.trans hpt
    obtain rfl := Option.some.inj (hpt₀.symm.trans task.pagetable)
    rw [after]
    exact hp.write _ _ _ _ _ _ rfl task low mapped user writable page (h root' hpt₀)
  | sbrk int task task' out =>
    obtain rfl := Option.some.inj (hpt.symm.trans task'.pagetable)
    exact hp.sbrk _ _ _ _ _ _ rfl int task task' out (h root' task.pagetable)
  | exec task opened out => exact absurd rfl (hexec _ _)
  | child ne unused parent proc content copy rest =>
    have hroot := (congrArg Proc.pagetable proc).symm.trans hpt
    obtain rfl := Option.some.inj hroot
    exact hp.child _ _ _ _ _ _ rfl unused parent proc copy rest
      (hparent ((hinv.state j).unused unused).1 _ _ rfl parent.pagetable)

/-- **The invariant rule for small steps.** -/
theorem EveryTask.step {P : Task → Frame → Prop} {m : Move} (h : EveryTask P k)
    (hinv : SysInv k own) (hs : SmallStep k m k') (hp : Preserved P k m k') : EveryTask P k' := by
  obtain ⟨own', -, hslots⟩ := hs.slots hinv
  intro j root' hpt
  by_cases hexec : ∃ path argv, m = .op j (.exec path argv)
  · obtain ⟨path, argv, rfl⟩ := hexec
    cases hslots j with
    | same paging owned phys =>
      have hpt₀ : (k.procs j).pagetable = some root' :=
        (congrArg Proc.pagetable paging).symm.trans hpt
      exact (hp.stable j).congr _ _ _ (hinv.sameView hpt paging phys) (h j root' hpt₀)
    | gone pagetable =>
      rw [hpt] at pagetable
      cases pagetable
    | exec task opened out =>
      exact hp.exec _ _ _ _ _ _ _ _ _ _ rfl task opened out hpt (h j _ task.pagetable)
  · push Not at hexec
    exact (hp.stable j).slot hinv (hslots j) hexec hpt (h j) fun _ i root _ => h i root

/-- **The first process**: nothing is mapped below its trap frame, and its paging metadata is
empty. -/
theorem userinit_task {k₀ k₁ : Kernel} (hb : Boot k₀) (hrun : userinit k₀ = .ok ((), k₁)) :
    (∃ own, SysInv k₁ own) ∧ ∀ j root, (k₁.procs j).pagetable = some root →
      (∃ tf, (k₁.procs j).paging = Proc.paging
        { pid := k₀.nextpid, trapframe := some tf, pagetable := some root }) ∧
      ∀ va, va < trapframeVa → k₁.mem.lookup root va = none := by
  obtain ⟨i, root, own, hstep, hroot, hempty⟩ := userinit_spec hb.sysInv hrun
  refine ⟨⟨own, hstep.inv⟩, fun j root' hp => ?_⟩
  by_cases hj : j = i
  · subst hj
    obtain rfl := Option.some.inj (hroot.symm.trans hp)
    refine ⟨?_, hempty⟩
    unfold userinit at hrun
    obtain ⟨oi, k₂, halloc, hrun⟩ := Halting.bind_eq_ok.mp hrun
    rcases allocproc_effect halloc with ⟨rfl, -⟩ | ⟨l, tf, root₁, rfl, -, hun, hprocs, -⟩
    · cases hrun
    obtain ⟨_, k₃, hmod, hrun⟩ := Halting.bind_eq_ok.mp hrun
    cases hmod
    obtain ⟨ip, k₄, hnamei, hrun⟩ := Halting.bind_eq_ok.mp hrun
    cases hrun
    have hp₄ : k₄.procs = k₂.procs := (fsOnly_namei _ _ _ _ _ hnamei).procs
    by_cases hl : j = l
    · subst hl
      simp only [Function.update_self, hp₄, hprocs] at hp ⊢
      cases hp
      refine ⟨tf, ?_⟩
      rw [hb.procs]
      rfl
    · simp only [Function.update_of_ne hl, hp₄, hprocs, hb.procs] at hp
      cases hp
  · have hsame := (hstep.other j hj).2.1.pagetable
    rw [hp, hb.procs] at hsame
    cases hsame

/-! ## Runs -/

theorem SmallReachable.step {m : Move} (h : SmallReachable k) (hs : SmallStep k m k') :
    SmallReachable k' := by
  obtain ⟨k₀, k₁, ms, hboot, huser, hrun⟩ := h
  exact ⟨k₀, k₁, _, hboot, huser, hrun.snoc hs⟩

/-- **The invariant rule for runs of small steps under a condition**: a property of the
processes that holds of a first process and is preserved by every step of the run holds of
every process at its end. -/
theorem everyTask_of_meets {P : Task → Frame → Prop} {C : Kernel → Move → Prop} {k₀ k₁ : Kernel}
    {ms : List Move} (hboot : Boot k₀) (huser : userinit k₀ = .ok ((), k₁))
    (hrun : Run.Meets SmallStep C k₁ ms k)
    (hinit : ∀ t root tf pid, t.p.paging = Proc.paging
        { pid := pid, trapframe := some tf, pagetable := some root } →
      (∀ va, va < trapframeVa → t.mem.lookup root va = none) → P t root)
    (hstep : ∀ k m k', SmallReachable k → C k m → SmallStep k m k' → EveryTask P k →
      Preserved P k m k') :
    (∃ own, SysInv k own) ∧ EveryTask P k := by
  obtain ⟨hinv, hfirst⟩ := userinit_task hboot huser
  suffices hgoal : SmallReachable k ∧ (∃ own, SysInv k own) ∧ EveryTask P k from hgoal.2
  refine Run.invariant_of_meets
    (I := fun k => SmallReachable k ∧ (∃ own, SysInv k own) ∧ EveryTask P k) ?_ hrun
    ⟨⟨k₀, k₁, [], hboot, huser, .nil k₁⟩, hinv, ?_⟩
  · rintro k m k' ⟨hreach, ⟨own, hown⟩, hP⟩ hC hs
    obtain ⟨own', hown', -⟩ := hs.slots hown
    exact ⟨hreach.step hs, ⟨own', hown'⟩, hP.step hown hs (hstep k m k' hreach hC hs hP)⟩
  · intro j root hp
    obtain ⟨⟨tf, hpaging⟩, hempty⟩ := hfirst j root hp
    exact hinit _ root tf _ hpaging hempty

/-- **The invariant rule for reachable states.** -/
theorem SmallReachable.everyTask {P : Task → Frame → Prop} (h : SmallReachable k)
    (hinit : ∀ t root tf pid, t.p.paging = Proc.paging
        { pid := pid, trapframe := some tf, pagetable := some root } →
      (∀ va, va < trapframeVa → t.mem.lookup root va = none) → P t root)
    (hstep : ∀ k m k', SmallReachable k → SmallStep k m k' → EveryTask P k → Preserved P k m k') :
    (∃ own, SysInv k own) ∧ EveryTask P k := by
  obtain ⟨k₀, k₁, ms, hboot, huser, hrun⟩ := h
  exact everyTask_of_meets hboot huser hrun.meets hinit fun k m k' hreach _ => hstep k m k' hreach

/-- **Following a process**: the steps of the system in which the process in slot `i`
makes no `exec` and is not reaped, and the steps in which it forks and the child in slot
`j` is followed from there. -/
inductive Follows : Nat × Kernel → Move → Nat × Kernel → Prop
  | stay {i : Nat} {k k' : Kernel} {m : Move} (step : SmallStep k m k')
      (noExec : ∀ path argv, m ≠ .op i (.exec path argv))
      (alive : (k'.procs i).pagetable.isSome = true) : Follows (i, k) m (i, k')
  | child {i j : Nat} {k k' : Kernel} (step : SmallStep k (.op i .fork) k')
      (new : (k.procs j).pagetable = none) (alive : (k'.procs j).pagetable.isSome = true) :
      Follows (i, k) (.op i .fork) (j, k')

/-- A property of the process that is followed. -/
def Follow (P : Task → Frame → Prop) (s : Nat × Kernel) : Prop :=
  SmallReachable s.2 ∧ (∃ own, SysInv s.2 own) ∧
    ∃ root, (s.2.procs s.1).pagetable = some root ∧ P (s.2.task s.1) root

/-- **The invariant rule for a process that is followed**, in runs under a condition. -/
theorem Follow.of_meets {P : Task → Frame → Prop} {C : Nat × Kernel → Move → Prop}
    {s s' : Nat × Kernel} {ms : List Move} (h : Follow P s) (hrun : Run.Meets Follows C s ms s')
    (hstable : ∀ i k m k' j, SmallReachable k → C (i, k) m → SmallStep k m k' →
      (m = .op i .fork ∨ j = i) → Stable P k m k' j) : Follow P s' := by
  refine Run.invariant_of_meets (I := Follow P) ?_ hrun h
  rintro ⟨i, k⟩ m ⟨j, k'⟩ ⟨hreach, ⟨own, hinv⟩, root, hroot, hP⟩ hC hs
  have hP' : ∀ root', (k.procs i).pagetable = some root' → P (k.task i) root' := fun root' hr => by
    obtain rfl := Option.some.inj (hroot.symm.trans hr)
    exact hP
  cases hs with
  | stay step noExec alive =>
    obtain ⟨own', hinv', hslots⟩ := step.slots hinv
    obtain ⟨root', hroot'⟩ := Option.isSome_iff_exists.mp alive
    refine ⟨hreach.step step, ⟨own', hinv'⟩, root', hroot', ?_⟩
    refine (hstable i k m k' i hreach hC step (Or.inr rfl)).slot hinv (hslots i) noExec hroot' hP'
      fun hnone => ?_
    rw [show (k.procs i).pagetable = some root from hroot] at hnone
    cases hnone
  | child step new alive =>
    obtain ⟨own', hinv', hslots⟩ := step.slots hinv
    obtain ⟨root', hroot'⟩ := Option.isSome_iff_exists.mp alive
    refine ⟨hreach.step step, ⟨own', hinv'⟩, root', hroot', ?_⟩
    refine (hstable i k _ k' j hreach hC step (Or.inl rfl)).slot hinv (hslots j) (by rintro _ _ ⟨⟩)
      hroot' (fun root hr => ?_) fun _ l root' hl => ?_
    · rw [new] at hr
      cases hr
    · cases hl
      exact hP' root'

/-! ## Computing runs -/

/-- The state after a small step of the process in slot `i`. -/
def Op.run (i : Nat) (k : Kernel) : Op → Option Kernel
  | .fault va isWrite isExec locks => okState (onTask i
      (fun fs => demandPageLoadNew { fs with noff := fs.noff + locks } va isWrite isExec) k)
  | .write va bytes =>
    match (k.procs i).pagetable with
    | none => none
    | some root =>
      match k.mem.lookup root va with
      | none => none
      | some e =>
        if va < maxVa ∧ e.perm.u = true ∧ e.perm.w = true ∧ va % pgSize + bytes.length ≤ pgSize then
          some (k.setTask i ⟨k.mem.setBytes e.ppn (va % pgSize) bytes, k.procs i⟩)
        else none
  | .kill => okState (updProc i (fun p => { p with killed := true }) k)
  | .sbrk n =>
    if -2 ^ 31 ≤ n ∧ n < 2 ^ 31 then okState (onTask i (fun _ => growproc n) k) else none
  | .fork => okState (kfork i k)
  | .exec path argv =>
    if argv.all fun s => decide (s.length < 2 ^ 63) then okState (Xv6.exec i path argv k) else none
  | .exit status => okState (kexit i status k)
  | .reap j =>
    if (k.procs j).state = .zombie ∧ (k.procs j).parent = some i then okState (freeproc j k)
      else none

theorem Op.does_of_run {o : Op} (h : o.run i k = some k') : o.Does i k k' := by
  cases o with
  | fault va isWrite isExec locks =>
    obtain ⟨_, hrun⟩ := okState_eq_some h
    exact .fault hrun
  | write va bytes =>
    simp only [Op.run] at h
    split at h
    · cases h
    next root hroot =>
    split at h
    · cases h
    next e he =>
    split at h
    · next hc =>
      cases h
      exact .write hroot hc.1 he hc.2.1 hc.2.2.1 hc.2.2.2
    · cases h
  | kill =>
    cases h
    exact .kill (updProc_apply ..)
  | sbrk n =>
    simp only [Op.run] at h
    split at h
    · next hint =>
      obtain ⟨_, hrun⟩ := okState_eq_some h
      exact .sbrk hint hrun
    · cases h
  | fork =>
    obtain ⟨_, hrun⟩ := okState_eq_some h
    exact .fork hrun
  | exec path argv =>
    simp only [Op.run] at h
    split at h
    · next hargv =>
      obtain ⟨_, hrun⟩ := okState_eq_some h
      exact .exec (fun s hs => by simpa using List.all_eq_true.mp hargv s hs) hrun
    · cases h
  | exit status =>
    obtain ⟨_, hrun⟩ := okState_eq_some h
    exact .exit hrun
  | reap j =>
    simp only [Op.run] at h
    split at h
    · next hj =>
      obtain ⟨_, hrun⟩ := okState_eq_some h
      exact .reap hj.1 hj.2 hrun
    · cases h

/-- The state after a small step that passes the check `c`. -/
def nextOp (c : Kernel → Move → Bool) (k : Kernel) : Move → Option Kernel
  | .op i o => if (k.procs i).state = .runnable ∧ c k (.op i o) = true then o.run i k else none
  | .others => none

theorem meets_of_nextOp {C : Kernel → Move → Prop} {c : Kernel → Move → Bool}
    (hc : ∀ k m, c k m = true → C k m) (k : Kernel) (m : Move) (k' : Kernel)
    (h : nextOp c k m = some k') : C k m ∧ SmallStep k m k' := by
  cases m with
  | others => cases h
  | op i o =>
    simp only [nextOp] at h
    split at h
    · next hr => exact ⟨hc k _ hr.2, .op hr.1 (Op.does_of_run h)⟩
    · cases h

end Xv6
