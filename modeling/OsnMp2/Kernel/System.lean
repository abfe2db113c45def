import OsnMp2.Kernel.Steps
import OsnMp2.Lib.Runs

/-!
# The system and its runs

The kernel as a transition system: the processes that may run take page faults, write their memory,
make the kernel copy from and to it, and make the system calls that change address spaces, in any
interleaving; between these steps the rest of the kernel may open, close and write files, and other
CPUs may take and give back memory.

A state is reachable when a run leads to it from the state in which `userinit` leaves the booted
kernel.

## Main definitions

* `Act`, `Event`: what a process does in one step, and the events of the system
* `Step`: the transition relation
* `Boot`, `Reachable`: the initial states and the reachable ones
* `runActs`, `stateAfter`: the state after a list of acts
* `machine`: a booted kernel with one executable file

## Main results

* `SysInv.step`: every step keeps the system invariant
* `Reachable.sysInv`: the system invariant holds in every reachable state
* `reachable_of_stateAfter`: what `stateAfter` computes is reachable
-/

namespace Xv6

variable {k k' k'' : Kernel} {own : Nat → Set Frame} {i : Nat}

/-- What a process does in one step. -/
inductive Act
  | fault (va : Nat) (isWrite isExec : Bool)
  | store (va : Nat) (b : UInt8)
  | copyin (src len : Nat)
  | copyout (dst : Nat) (bytes : List UInt8)
  | sbrk (n : Int)
  | fork
  | exec (path : List UInt8) (argv : List (List UInt8))
  | exit (status : Int)
  | wait (addr : Nat)

/-- The events of the system: an act of the process in slot `i`, or a change by the rest of the
kernel. -/
inductive Event
  | act (i : Nat) (a : Act)
  | others

/-- The effect of an act of the process in slot `i`. The argument of `sbrk` is an `int`, and an
argument string of `exec` lies in memory. -/
inductive Act.Does (i : Nat) (k : Kernel) : Act → Kernel → Prop
  | fault {va : Nat} {isWrite isExec : Bool} {k' : Kernel}
      (run : usertrapFault i va isWrite isExec k = .ok ((), k')) :
      Act.Does i k (.fault va isWrite isExec) k'
  | store {va : Nat} {b : UInt8} {t : Task} (run : userStore (k.task i) va b = some t) :
      Act.Does i k (.store va b) (k.setTask i t)
  | copyin {src len : Nat} {r : Int × List UInt8} {k' : Kernel}
      (run : onTask i (fun fs => do Xv6.copyin fs (← pagetableOf) src len) k = .ok (r, k')) :
      Act.Does i k (.copyin src len) k'
  | copyout {dst : Nat} {bytes : List UInt8} {r : Int} {k' : Kernel}
      (run : onTask i (fun fs => do Xv6.copyout fs (← pagetableOf) dst bytes) k = .ok (r, k')) :
      Act.Does i k (.copyout dst bytes) k'
  | sbrk {n r : Int} {k' : Kernel} (int : -2 ^ 31 ≤ n ∧ n < 2 ^ 31)
      (run : onTask i (fun _ => growproc n) k = .ok (r, k')) :
      Act.Does i k (.sbrk n) k'
  | fork {r : Int} {k' : Kernel} (run : kfork i k = .ok (r, k')) : Act.Does i k .fork k'
  | exec {path : List UInt8} {argv : List (List UInt8)} {r : Int} {k' : Kernel}
      (argvOk : ArgvOk argv) (run : Xv6.exec i path argv k = .ok (r, k')) :
      Act.Does i k (.exec path argv) k'
  | exit {status : Int} {k' : Kernel} (run : kexit i status k = .ok ((), k')) :
      Act.Does i k (.exit status) k'
  | wait {addr : Nat} {r : Int} {k' : Kernel} (run : kwait i addr k = .ok (r, k')) :
      Act.Does i k (.wait addr) k'

/-- What the rest of the kernel may do between the steps of the processes: change files, open files
and directories, and let `kalloc` find memory or not. -/
structure Others (k k' : Kernel) : Prop where
  mem : ∃ starved, k'.mem = { k.mem with starved := starved }
  procs : ∀ i, ∃ files dir, k'.procs i = { k.procs i with ofile := files, cwd := dir }
  noff : k'.fs.noff = k.fs.noff

/-- **The transition relation.** -/
inductive Step (k : Kernel) : Event → Kernel → Prop
  | act {i : Nat} {a : Act} {k' : Kernel} (runnable : (k.procs i).state = .runnable)
      (does : a.Does i k k') : Step k (.act i a) k'
  | others {k' : Kernel} (change : Others k k') : Step k .others k'

/-- **The booted kernel**: no process, no reference to an inode or a file, no lock held, and a free
list of distinct pages above the kernel, in which the trampoline lies. -/
structure Boot (k : Kernel) : Prop where
  nodup : k.mem.freelist.Nodup
  allocatable : ∀ f ∈ k.mem.freelist, k.mem.Allocatable f
  refreed : k.mem.refreed = false
  tramp : k.mem.tramp < k.mem.kend
  procs : ∀ i, k.procs i = {}
  itable : ∀ ip, (k.fs.itable ip).ref = 0 ∧ (k.fs.itable ip).lockedBy = none
  ftable : ∀ f, (k.ftable f).ref = 0
  noff : k.fs.noff = 0

/-- **Reachable states.** -/
def Reachable (k : Kernel) : Prop :=
  ∃ k₀ k₁ es, Boot k₀ ∧ userinit k₀ = .ok ((), k₁) ∧ Run Step k₁ es k

/-! ## The invariant -/

theorem Boot.sysInv (h : Boot k) : SysInv k fun _ => ∅ where
  nodup := h.nodup
  refreed := h.refreed
  tramp_free hc := absurd (h.allocatable _ hc).1 (Nat.not_le.mpr h.tramp)
  own_free _ _ ha := absurd ha (Set.notMem_empty _)
  disjoint _ _ _ _ ha := absurd ha (Set.notMem_empty _)
  tramp_own _ := Set.notMem_empty _
  proc i := .idle (by rw [h.procs]) (by rw [h.procs]) (by rw [h.procs])
  state i := ⟨fun _ => by rw [h.procs]; exact ⟨rfl, rfl⟩, fun hr => by rw [h.procs] at hr; cases hr⟩
  allocatable a ha := by
    rcases ha with ha | ⟨_, ha⟩
    · exact h.allocatable a ha
    · exact absurd ha (Set.notMem_empty a)

/-- **`userinit`** makes the first process, without user pages. -/
theorem userinit_spec (h : SysInv k own) (hrun : userinit k = .ok ((), k')) :
    ∃ i root own', SysStep {i} k own k' own' ∅ ∧ (k'.procs i).pagetable = some root ∧
      ∀ va, va < trapframeVa → k'.mem.lookup root va = none := by
  unfold userinit at hrun
  obtain ⟨oi, k₁, halloc, hrun⟩ := Halting.bind_eq_ok.mp hrun
  rcases allocproc_spec h halloc with ⟨rfl, -⟩ | ⟨i, tf, root, o, rfl, -, hstep, htask,
    -, hempty, -⟩
  · cases hrun
  obtain ⟨_, k₂, hmod, hrun⟩ := Halting.bind_eq_ok.mp hrun
  cases hmod
  obtain ⟨ip, k₃, hnamei, hrun⟩ := Halting.bind_eq_ok.mp hrun
  cases hrun
  have hfs := fsOnly_namei _ _ _ _ _ hnamei
  have hq : Quiet k₁ k₃ := ⟨hfs.mem, fun j => by rw [hfs.procs]; exact SameSpace.refl _,
    fun j => Or.inl (by rw [hfs.procs])⟩
  have hs₃ := hstep.trans (hstep.inv.quiet hq)
  have hself : Function.update own i (insert tf o) i = insert tf o := Function.update_self ..
  have hpi : k₃.procs i = k₁.procs i := congrFun hfs.procs i
  have hpt : (k₁.procs i).pagetable = some root := htask.pagetable
  have hact : SysStep {i} k₃ _ { k₃ with
      procs := Function.update k₃.procs i { k₃.procs i with cwd := ip, state := .runnable } } _ ∅ :=
    hs₃.inv.actProc (o := insert tf o)
      (by rw [hself]; exact Mem.Acts.refl (hself ▸ hs₃.inv.owned i))
    (.live ((show TaskOk ⟨k₃.mem, k₃.procs i⟩ root tf o by
      rw [hpi, show k₃.mem = k₁.mem from hfs.mem]; exact htask).congr ⟨rfl, rfl, rfl, rfl, rfl⟩))
    (stateOk_of_runnable rfl (by rw [hpi]; exact hpt))
  refine ⟨i, root, _, by simpa using hs₃.trans hact, ?_, fun va hva => ?_⟩
  · simpa [hpi] using hpt
  · rw [show k₃.mem = k₁.mem from hfs.mem]
    exact hempty va hva

theorem SysInv.others (h : SysInv k own) (ho : Others k k') : SysStep ∅ k own k' own ∅ := by
  obtain ⟨starved, hmem⟩ := ho.mem
  have hq : Quiet { k with mem := k'.mem } k' :=
    ⟨rfl, fun j => by obtain ⟨_, _, hj⟩ := ho.procs j; rw [hj]; exact ⟨rfl, rfl, rfl, rfl, rfl⟩,
      fun j => by obtain ⟨_, _, hj⟩ := ho.procs j; rw [hj]; exact Or.inl rfl⟩
  have hs : SysStep ∅ k own { k with mem := k'.mem } own ∅ := by
    have hacts : k.mem.Acts ∅ k'.mem ∅ := by
      rw [hmem]
      exact ⟨Store.Local.refl ((h.owned 0).mono (Set.empty_subset _)), rfl, rfl, rfl⟩
    rw [hmem]
    refine ⟨⟨h.nodup, h.refreed, h.tramp_free, h.own_free, h.disjoint, h.tramp_own, fun j => ?_,
      h.state, h.allocatable⟩, fun a => by
        simp [total], fun _ _ => ⟨rfl, SameSpace.refl _, fun _ _ => rfl⟩⟩
    exact (h.proc j).of_other (hmem ▸ hacts) (fun _ _ => id) id
  simpa using hs.trans (hs.inv.quiet hq)

/-- **Every step keeps the system invariant**, and loses at most the frames that `exec` and
`freeproc` lose. -/
theorem SysInv.step {e : Event} (h : SysInv k own) (hs : Step k e k') :
    ∃ A own' lost, SysStep A k own k' own' lost := by
  cases hs with
  | others change => exact ⟨_, own, ∅, h.others change⟩
  | act hr does =>
    rename_i i a
    obtain ⟨root, tf, o, hroot, ho, htf, htask⟩ := h.runnable hr
    cases does with
    | fault run =>
      obtain ⟨_, _, _, _, _, _, k₁, -, -, -, -, -, hstep, -, hk⟩ := usertrapFault_spec h hr run
      rcases hk with ⟨-, rfl⟩ | ⟨-, hq⟩
      · exact ⟨_, _, _, hstep⟩
      · exact ⟨_, _, _, hstep.trans (hstep.inv.quiet hq)⟩
    | store run => exact ⟨_, _, _, h.taskStep ho htf hr (TaskStep.store htask run)⟩
    | copyin run =>
      obtain ⟨t, hrun, rfl⟩ := onTask_eq_ok.mp run
      rw [Halting.bind_of_ok (pagetableOf_apply hroot)] at hrun
      obtain ⟨o', hstep⟩ := TaskStep.copyin htask hrun
      exact ⟨_, _, _, h.taskStep ho htf hr hstep⟩
    | copyout run =>
      obtain ⟨t, hrun, rfl⟩ := onTask_eq_ok.mp run
      rw [Halting.bind_of_ok (pagetableOf_apply hroot)] at hrun
      obtain ⟨o', hstep⟩ := TaskStep.copyout htask hrun
      exact ⟨_, _, _, h.taskStep ho htf hr hstep⟩
    | sbrk _ run =>
      obtain ⟨t, hrun, rfl⟩ := onTask_eq_ok.mp run
      obtain ⟨o', htask', hacts, hgrow⟩ := htask.growproc hrun
      have hstate : t.p.state = .runnable := by
        cases hgrow <;> exact hr
      exact ⟨_, _, _, h.setTask ho htf hacts htask' hstate⟩
    | fork run =>
      cases kfork_spec h hr run with
      | failed step same => exact ⟨_, _, _, step⟩
      | child ne unused parent step => exact ⟨_, _, _, step⟩
    | exec argvOk run =>
      obtain ⟨own', lost, hstep, -⟩ := h.exec hr (exec_spec h hr argvOk run)
      exact ⟨_, own', lost, hstep⟩
    | exit run => exact ⟨_, _, _, h.quiet (quiet_kexit i _ _ _ _ run)⟩
    | wait run =>
      obtain ⟨k₁, own₁, hstep, -, -, hk⟩ := kwait_spec h hr run
      rcases hk with ⟨-, rfl⟩ | ⟨j, -, -, -, -, hfree⟩
      · exact ⟨_, _, _, hstep⟩
      · exact ⟨_, _, _, hstep.trans (hstep.inv.freeproc hfree)⟩

/-- **The system invariant holds in every reachable state.** -/
theorem Reachable.sysInv (h : Reachable k) : ∃ own, SysInv k own := by
  obtain ⟨k₀, k₁, es, hboot, hinit, hrun⟩ := h
  obtain ⟨_, _, own, hstep, -⟩ := userinit_spec hboot.sysInv hinit
  exact hrun.invariant (I := fun k => ∃ own, SysInv k own) (fun _ _ _ ⟨own, hown⟩ hs => by
    obtain ⟨_, own', lost, hs'⟩ := hown.step hs
    exact ⟨own', hs'.inv⟩) ⟨own, hstep.inv⟩

/-! ## Computing runs -/

/-- The state in which a computation returns. -/
def okState {α : Type} (r : Except Halt (α × Kernel)) : Option Kernel :=
  match r with
  | .ok (_, k) => some k
  | .error _ => none

theorem okState_eq_some {α : Type} {r : Except Halt (α × Kernel)} (h : okState r = some k) :
    ∃ a, r = .ok (a, k) := by
  match r, h with
  | .ok (a, _), rfl => exact ⟨a, rfl⟩

/-- The state after an act. -/
def Act.run (i : Nat) (k : Kernel) : Act → Option Kernel
  | .fault va isWrite isExec => okState (usertrapFault i va isWrite isExec k)
  | .store va b => (userStore (k.task i) va b).map fun t => k.setTask i t
  | .copyin src len => okState (onTask i (fun fs => do Xv6.copyin fs (← pagetableOf) src len) k)
  | .copyout dst bytes => okState (onTask i (fun fs => do Xv6.copyout fs (← pagetableOf) dst bytes)
      k)
  | .sbrk n =>
    if -2 ^ 31 ≤ n ∧ n < 2 ^ 31 then okState (onTask i (fun _ => growproc n) k) else none
  | .fork => okState (kfork i k)
  | .exec path argv =>
    if argv.all fun s => decide (s.length < 2 ^ 63) then okState (Xv6.exec i path argv k) else none
  | .exit status => okState (kexit i status k)
  | .wait addr => okState (kwait i addr k)

/-- The state after a list of acts of processes that all pass the check `c`. -/
def runActs (c : Kernel → Event → Bool) : List (Nat × Act) → Kernel → Option Kernel
  | [], k => some k
  | (i, a) :: rest, k =>
    if (k.procs i).state = .runnable ∧ c k (.act i a) = true then (a.run i k).bind (runActs c rest)
    else none

theorem Act.does_of_run {a : Act} (h : a.run i k = some k') : a.Does i k k' := by
  cases a with
  | fault va isWrite isExec =>
    obtain ⟨_, hrun⟩ := okState_eq_some h
    exact .fault hrun
  | store va b =>
    obtain ⟨t, hrun, rfl⟩ := Option.map_eq_some_iff.mp h
    exact .store hrun
  | copyin src len =>
    obtain ⟨_, hrun⟩ := okState_eq_some h
    exact .copyin hrun
  | copyout dst bytes =>
    obtain ⟨_, hrun⟩ := okState_eq_some h
    exact .copyout hrun
  | sbrk n =>
    simp only [Act.run] at h
    split at h
    · next hint =>
      obtain ⟨_, hrun⟩ := okState_eq_some h
      exact .sbrk hint hrun
    · cases h
  | fork =>
    obtain ⟨_, hrun⟩ := okState_eq_some h
    exact .fork hrun
  | exec path argv =>
    simp only [Act.run] at h
    split at h
    · next hargv =>
      obtain ⟨_, hrun⟩ := okState_eq_some h
      exact .exec (fun s hs => by simpa using List.all_eq_true.mp hargv s hs) hrun
    · cases h
  | exit status =>
    obtain ⟨_, hrun⟩ := okState_eq_some h
    exact .exit hrun
  | wait addr =>
    obtain ⟨_, hrun⟩ := okState_eq_some h
    exact .wait hrun

theorem meets_of_runActs {C : Kernel → Event → Prop} {c : Kernel → Event → Bool}
    (hc : ∀ k e, c k e = true → C k e) :
    ∀ (acts : List (Nat × Act)) {k₀ k k' : Kernel} {es : List Event}, Run.Meets Step C k₀ es k →
      runActs c acts k = some k' → ∃ es', Run.Meets Step C k₀ es' k' := by
  intro acts
  induction acts with
  | nil =>
    intro k₀ k k' es hrun h
    cases h
    exact ⟨es, hrun⟩
  | cons e rest ih =>
    obtain ⟨i, a⟩ := e
    intro k₀ k k' es hrun h
    unfold runActs at h
    split at h
    · next hr =>
      obtain ⟨k₁, ha, hrest⟩ := Option.bind_eq_some_iff.mp h
      exact ih (hrun.snoc (hc k _ hr.2) (.act hr.1 (Act.does_of_run ha))) hrest
    · cases h

/-- The state that `userinit` and a list of acts lead to from the booted kernel `k₀`; `k₀` itself
when one of them does not return. -/
def stateAfter (k₀ : Kernel) (acts : List (Nat × Act)) : Kernel :=
  ((okState (userinit k₀)).bind (runActs (fun _ _ => true) acts)).getD k₀

theorem reachable_of_stateAfter {k₀ : Kernel} {acts : List (Nat × Act)} (hb : Boot k₀)
    (h : ((okState (userinit k₀)).bind (runActs (fun _ _ => true) acts)).isSome = true) :
    Reachable (stateAfter k₀ acts) := by
  obtain ⟨k, hk⟩ := Option.isSome_iff_exists.mp h
  obtain ⟨k₁, hinit, hacts⟩ := Option.bind_eq_some_iff.mp hk
  obtain ⟨_, hinit⟩ := okState_eq_some hinit
  obtain ⟨es, hrun⟩ := meets_of_runActs (C := fun _ _ => True) (fun _ _ _ => trivial) acts
    (Run.Meets.nil k₁) hacts
  rw [stateAfter, hk]
  exact ⟨k₀, k₁, es, hb, hinit, hrun.run⟩

/-- The program header of a loadable segment. -/
def progHdrBytes (flags off vaddr filesz memsz : Nat) : List UInt8 :=
  leBytes elfProgLoad 4 ++ leBytes flags 4 ++ leBytes off 8 ++ leBytes vaddr 8 ++ leBytes vaddr 8 ++
    leBytes filesz 8 ++ leBytes memsz 8 ++ leBytes pgSize 8

/-- An executable with the given program headers after its ELF header, and entry point zero. -/
def elfFile (phs : List (List UInt8)) : List UInt8 :=
  leBytes elfMagic 4 ++ List.replicate 28 0 ++ leBytes elfHdrSize 8 ++ List.replicate 16 0 ++
    leBytes phs.length 2 ++ List.replicate 6 0 ++ phs.flatten

/-- A booted kernel with `n` free pages whose root directory has the given files, named by one
letter: inode `2 + j` is the file of letter `97 + j`. A file has 12288 bytes: the given ones, then
sevens. -/
def machine (n : Nat) (files : List (List UInt8)) : Kernel where
  mem := { freelist := List.range' 0x80100 n, phys := fun _ => PhysPage.fill 0, kend := 0x80100,
           tramp := 0x80000, starved := [] }
  procs := fun _ => {}
  nextpid := 1
  initproc := none
  fs := { itable := fun _ => {}, noff := 0, buf := fun _ => .ready, iblock := fun _ => 0,
          disk := fun inum =>
            if inum = rootIno then
              { type := .dir, nlink := 1, dirents := (List.range files.length).map fun j =>
                  ([UInt8.ofNat (97 + j)], 2 + j) }
            else match files[inum - 2]? with
              | some bytes => { type := .file, nlink := 1, size := 12288,
                                data := fun k => bytes.getD k 7, addr := fun bn => 100 * inum + bn }
              | none => {} }
  ftable := fun _ => {}

/-- Such a machine has booted, when it has no more pages than `PHYSTOP` allows. -/
theorem machine_boot {n : Nat} (hn : n ≤ 0x7f00) (files : List (List UInt8)) :
    Boot (machine n files) where
  nodup := List.nodup_range'
  allocatable f hf := by
    have hf := List.mem_range'_1.mp hf
    exact ⟨hf.1, Nat.lt_of_lt_of_le hf.2 (by omega)⟩
  refreed := rfl
  tramp := show 0x80000 < 0x80100 by decide
  procs _ := rfl
  itable _ := ⟨rfl, rfl⟩
  ftable _ := rfl
  noff := rfl

end Xv6
