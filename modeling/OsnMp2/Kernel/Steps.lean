import OsnMp2.Kernel.ProcessInv

/-!
# What each system call does to the system

`fork`, `exec`, `wait`, `sbrk`, page faults and kernel copies as steps of the system: each keeps the
invariant `SysInv`, and loses no frame but the ones named here.

## Main definitions

* `KforkOut`, `ExecStep`: the outcomes of `kfork` and `exec` on the kernel

## Main results

* `SysInv.setTask`: a step of the running process alone
* `kfork_spec`, `exec_spec`, `kwait_spec`: the system calls
-/

namespace Xv6

variable {k k' k'' : Kernel} {m m' : Mem} {root tf : Frame} {own : Nat → Set Frame} {i : Nat}
  {o o' : Set Frame} {t t' : Task}

/-! ## The running process -/

/-- A process that may run has an address space. -/
theorem SysInv.live (h : SysInv k own) (hr : (k.procs i).pagetable = some root) :
    ∃ tf o, own i = insert tf o ∧ tf ∉ o ∧ TaskOk (k.task i) root tf o := by
  obtain ⟨oi, ho⟩ : ∃ oi, oi = own i := ⟨_, rfl⟩
  have hproc := h.proc i
  rw [← ho] at hproc ⊢
  cases hproc with
  | idle pagetable => rw [hr] at pagetable; cases pagetable
  | frame pagetable => rw [hr] at pagetable; cases pagetable
  | live task =>
    obtain rfl := Option.some.inj (hr.symm.trans task.pagetable)
    exact ⟨_, _, rfl, fun hc => (task.space.own_ne _ hc).2 rfl, task⟩

theorem SysInv.runnable (h : SysInv k own) (hr : (k.procs i).state = .runnable) :
    ∃ root tf o, (k.procs i).pagetable = some root ∧ own i = insert tf o ∧ tf ∉ o ∧
      TaskOk (k.task i) root tf o := by
  obtain ⟨root, hroot⟩ := Option.ne_none_iff_exists'.mp ((h.state i).runnable hr)
  obtain ⟨tf, o, ho⟩ := h.live hroot
  exact ⟨root, tf, o, hroot, ho⟩

/-- An action on the address space of a process leaves its trap frame alone. -/
theorem SysInv.acts (h : SysInv k own) (ho : own i = insert tf o) (htf : tf ∉ o)
    (hacts : k.mem.Acts o m' o') : k.mem.Acts (own i) m' (insert tf o') := by
  have howned : k.mem.store.Owned {tf} := (h.owned i).mono (by rw [ho]; simp)
  have hfr := hacts.frame howned (by simpa using htf)
  rwa [Set.union_singleton, Set.union_singleton, ← ho] at hfr

theorem stateOk_of_runnable {p : Proc} (hr : p.state = .runnable) (hp : p.pagetable = some root) :
    StateOk p := by
  refine ⟨fun hu => absurd (hr.symm.trans hu) (by decide), fun _ => ?_⟩
  rw [hp]
  exact Option.some_ne_none root

/-- **A step of the running process** on its address space. -/
theorem SysInv.setTask (h : SysInv k own) (ho : own i = insert tf o) (htf : tf ∉ o)
    (hacts : k.mem.Acts o t.mem o') (htask : TaskOk t root tf o') (hr : t.p.state = .runnable) :
    SysStep {i} k own (k.setTask i t) (Function.update own i (insert tf o')) ∅ :=
  h.actProc (h.acts ho htf hacts) (.live htask) (stateOk_of_runnable hr htask.pagetable)

/-- The same, for frames that the process does not have any more after the step. -/
theorem SysInv.setTask_lost (h : SysInv k own) {lost : Set Frame} (ho : own i = insert tf o)
    (htf : tf ∉ o) (hacts : k.mem.Acts o t.mem (lost ∪ o')) (htask : TaskOk t root tf o')
    (hdisj : ∀ a ∈ o', a ∉ lost) (hlost : tf ∉ lost) (hr : t.p.state = .runnable) :
    SysStep {i} k own (k.setTask i t) (Function.update own i (insert tf o')) lost := by
  have hstep := h.act (k.setTask i t) (h.acts ho htf hacts)
    (show insert tf o' ⊆ _ from Set.insert_subset_insert Set.subset_union_right)
    (by simpa [Kernel.setTask] using .live htask)
    (fun j hj => by simpa [Kernel.setTask, hj] using SameSpace.refl _) fun j => ?_
  · have hset : insert tf (lost ∪ o') \ insert tf o' = lost := by
      ext a
      simp only [Set.mem_sdiff, Set.mem_insert_iff, Set.mem_union]
      constructor
      · tauto
      · intro ha
        refine ⟨Or.inr (Or.inl ha), ?_⟩
        rintro (rfl | hc)
        · exact hlost ha
        · exact hdisj a hc ha
    rwa [hset] at hstep
  · by_cases hj : j = i
    · subst hj
      simpa [Kernel.setTask] using stateOk_of_runnable hr htask.pagetable
    · simpa [Kernel.setTask, hj] using h.state j

/-! ## Page faults and kernel copies -/

/-- A step of the running process that keeps its image: its address space fits, and only the tables
of its pages have changed. -/
structure TaskStep (t : Task) (root tf : Frame) (o : Set Frame) (t' : Task) (o' : Set Frame) :
    Prop where
  task : TaskOk t' root tf o'
  acts : t.mem.Acts o t'.mem o'
  image : SameImage t.p t'.p

theorem TaskStep.refl (h : TaskOk t root tf o) : TaskStep t root tf o t o :=
  ⟨h, Mem.Acts.refl h.space.space.owned, SameImage.refl _⟩

theorem TaskStep.trans {t'' : Task} {o'' : Set Frame} (h : TaskStep t root tf o t' o')
    (h' : TaskStep t' root tf o' t'' o'') : TaskStep t root tf o t'' o'' :=
  ⟨h'.task, h.acts.trans h'.acts, h.image.trans h'.image⟩

theorem TaskStep.fault {fs : Fs} {va : Nat} {w x : Bool} {r : Int} (h : TaskOk t root tf o)
    (hrun : demandPageLoadNew fs va w x t = .ok (r, t')) : ∃ o', TaskStep t root tf o t' o' := by
  obtain ⟨o', htask, hacts, hf⟩ := h.fault hrun
  exact ⟨o', htask, hacts, hf.sameImage⟩

theorem TaskStep.setBytes (h : TaskOk t root tf o) {va : Nat} {e : Pte}
    (he : t.mem.lookup root va = some e) (hu : e.perm.u = true) (off : Nat) (bs : List UInt8) :
    TaskStep t root tf o ⟨t.mem.setBytes e.ppn off bs, t.p⟩ o := by
  obtain ⟨htask, hacts⟩ := h.setBytes he hu off bs
  exact ⟨htask, hacts, SameImage.refl _⟩

theorem TaskStep.copyout {fs : Fs} {dst : Nat} {src : List UInt8} {r : Int} (h : TaskOk t root tf o)
    (hrun : copyout fs root dst src t = .ok (r, t')) : ∃ o', TaskStep t root tf o t' o' := by
  unfold Xv6.copyout at hrun
  obtain ⟨⟨r', rest⟩, t₁, hloop, hrun⟩ := Halting.bind_eq_ok.mp hrun
  obtain ⟨-, rfl⟩ := Halting.pure_eq_ok.mp hrun
  have hind := copyout_induct (I := fun _ _ t' => ∃ o', TaskStep t root tf o t' o')
    (fun t₁ t₂ _ _ _ ⟨o₁, h₁⟩ _ _ _ hf => by
      obtain ⟨o₂, h₂⟩ := TaskStep.fault h₁.task hf
      exact ⟨o₂, h₁.trans h₂⟩)
    (fun t₁ _ _ e ⟨o₁, h₁⟩ _ _ he hu _ => ⟨o₁, h₁.trans (TaskStep.setBytes h₁.task he hu _ _)⟩)
    _ ⟨o, TaskStep.refl h⟩ hloop
  obtain ⟨⟨_, o', h'⟩, -⟩ := hind
  exact ⟨o', h'⟩

theorem TaskStep.copyin {fs : Fs} {src len : Nat} {r : Int × List UInt8} (h : TaskOk t root tf o)
    (hrun : copyin fs root src len t = .ok (r, t')) : ∃ o', TaskStep t root tf o t' o' := by
  obtain ⟨_, _, ⟨o', h'⟩, -⟩ := copyin_induct
    (I := fun _ _ _ t' => ∃ o', TaskStep t root tf o t' o')
    (fun t₁ t₂ _ _ _ _ ⟨o₁, h₁⟩ _ _ _ hf => by
      obtain ⟨o₂, h₂⟩ := TaskStep.fault h₁.task hf
      exact ⟨o₂, h₁.trans h₂⟩)
    (fun _ _ _ _ _ hI _ _ _ _ => hI) _ ⟨o, TaskStep.refl h⟩ hrun
  exact ⟨o', h'⟩

/-- **A user store** writes to a page that is mapped for the user with `PTE_W`. -/
theorem userStore_spec {va : Nat} {b : UInt8} (hp : t.p.pagetable = some root)
    (hrun : userStore t va b = some t') :
    ∃ e, va < maxVa ∧ t.mem.lookup root va = some e ∧ e.perm.u = true ∧ e.perm.w = true ∧
      t' = ⟨t.mem.setBytes e.ppn (va % pgSize) [b], t.p⟩ := by
  unfold userStore at hrun
  rw [hp] at hrun
  dsimp only at hrun
  split at hrun
  · cases hrun
  · next hva =>
    split at hrun
    · next e he =>
      split at hrun
      · next hperm =>
        rw [Bool.and_eq_true] at hperm
        cases hrun
        exact ⟨e, by omega, he, hperm.1, hperm.2, rfl⟩
      · cases hrun
    · cases hrun

theorem TaskStep.store {va : Nat} {b : UInt8} (h : TaskOk t root tf o)
    (hrun : userStore t va b = some t') : TaskStep t root tf o t' o := by
  obtain ⟨e, -, he, hu, -, rfl⟩ := userStore_spec h.pagetable hrun
  exact TaskStep.setBytes h he hu _ _

/-- Such a step of the running process, as a step of the system. -/
theorem SysInv.taskStep (h : SysInv k own) (ho : own i = insert tf o) (htf : tf ∉ o)
    (hr : (k.procs i).state = .runnable) (hstep : TaskStep (k.task i) root tf o t o') :
    SysStep {i} k own (k.setTask i t) (Function.update own i (insert tf o')) ∅ :=
  h.setTask ho htf hstep.acts hstep.task (hstep.image.state.trans hr)

/-- **A page fault from user space**, handled or not. -/
theorem usertrapFault_spec (h : SysInv k own) (hr : (k.procs i).state = .runnable) {va : Nat}
    {w x : Bool} (hrun : usertrapFault i va w x k = .ok ((), k')) :
    ∃ root tf o t r o' k₁, own i = insert tf o ∧ (k.procs i).pagetable = some root ∧
      TaskOk (k.task i) root tf o ∧ demandPageLoadNew k.fs va w x (k.task i) = .ok (r, t) ∧
      TaskStep (k.task i) root tf o t o' ∧
      SysStep {i} k own k₁ (Function.update own i (insert tf o')) ∅ ∧ k₁ = k.setTask i t ∧
      (r = 0 ∧ k' = k₁ ∨ r ≠ 0 ∧ Quiet k₁ k') := by
  obtain ⟨root, tf, o, hroot, ho, htf, htask⟩ := h.runnable hr
  unfold usertrapFault at hrun
  obtain ⟨r, k₁, hon, hrun⟩ := Halting.bind_eq_ok.mp hrun
  obtain ⟨t, hf, rfl⟩ := onTask_eq_ok.mp hon
  obtain ⟨o', hstep⟩ := TaskStep.fault htask hf
  refine ⟨root, tf, o, t, r, o', _, ho, hroot, htask, hf, hstep, h.taskStep ho htf hr hstep,
    rfl, ?_⟩
  split at hrun
  · next hz =>
    obtain ⟨-, rfl⟩ := Halting.pure_eq_ok.mp hrun
    exact Or.inl ⟨hz, rfl⟩
  · next hz =>
    obtain ⟨_, k₂, hup, hrun⟩ := Halting.bind_eq_ok.mp hrun
    have hq₁ := quiet_updProc (f := fun p => { p with killed := true })
      (fun p => ⟨rfl, rfl, rfl, rfl, rfl⟩) (fun p => Or.inl rfl) i _ _ _ hup
    exact Or.inr ⟨hz, hq₁.trans (quiet_kexit i (-1) _ _ _ hrun)⟩

/-! ## `fork` -/

/-- The child that `allocproc` and `kfork` make in slot `j` for the process in slot `i`. -/
def newChild (k : Kernel) (i j : Nat) (tf root : Frame) : Proc :=
  childOf i (k.procs i) (initProc { k.procs j with
    pid := k.nextpid, state := .used, trapframe := some tf, pagetable := some root })

/-- **The outcomes of `kfork`** by the process in slot `i`. -/
inductive KforkOut (k : Kernel) (own : Nat → Set Frame) (i : Nat) : Int → Kernel → Prop
  /-- no slot or no memory: everything is given back -/
  | failed {k' : Kernel} (step : SysStep {j | (k.procs j).state = .unused} k own k' own ∅)
      (same : ∀ j, (k.procs j).state ≠ .unused → SameSpace (k.procs j) (k'.procs j)) :
      KforkOut k own i (-1) k'
  /-- the child in slot `j` has a copy of the mapped pages -/
  | child {k' : Kernel} {j : Nat} {root root' tf' : Frame} {o' : Set Frame} (ne : j ≠ i)
      (unused : (k.procs j).state = .unused) (parent : (k.procs i).pagetable = some root)
      (step : SysStep {j} k own k' (Function.update own j (insert tf' o')) ∅)
      (procs : k'.procs = Function.update k.procs j (newChild k i j tf' root'))
      (content : ∀ ip, k'.fs.content ip = k.fs.content ip)
      (copy : ∀ va, va < maxVa → va / pgSize < ((k.procs i).sz + (pgSize - 1)) / pgSize →
        CopyOf k.mem (k.mem.lookup root va) k'.mem (k'.mem.lookup root' va))
      (rest : ∀ va, va < trapframeVa → ¬ va / pgSize < ((k.procs i).sz + (pgSize - 1)) / pgSize →
        k'.mem.lookup root' va = none) :
      KforkOut k own i k.nextpid k'

/-- **The address spaces of two processes are apart.** -/
theorem SysInv.apart (h : SysInv k own) {j : Nat} {tf' : Frame} (hij : i ≠ j)
    (hi : own i = insert tf o)
    (htf : tf ∉ o) (hp : (k.procs i).pagetable = some root) (ht : (k.procs i).trapframe = some tf)
    (hj : own j = insert tf' o') : TaskOk (k.task i) root tf o ∧ Apart k.mem root tf o o' := by
  have htask : TaskOk (k.task i) root tf o := by
    obtain ⟨tf₂, o₂, ho₂, htf₂, htask₂⟩ := h.live hp
    obtain rfl : tf₂ = tf := Option.some.inj (htask₂.trapframe.symm.trans ht)
    have hoeq : o₂ = o := by
      rw [hi] at ho₂
      have hsub := congrArg (· \ {tf₂}) ho₂
      simpa [Set.insert_sdiff_of_mem, htf, htf₂] using hsub.symm
    exact hoeq ▸ htask₂
  have hdisj : ∀ a ∈ insert tf o, a ∉ o' := fun a ha hc =>
    h.disjoint i j hij a (by rw [hi]; exact ha) (by rw [hj]; exact Set.mem_insert_of_mem _ hc)
  exact ⟨htask, htask.space, fun a ha => hdisj a (Set.mem_insert_of_mem _ ha),
    fun hc => h.tramp_own j (by rw [hj]; exact Set.mem_insert_of_mem _ hc),
    hdisj tf (Set.mem_insert _ _)⟩

/-- **`kfork`** has one of its outcomes. -/
theorem kfork_spec (h : SysInv k own) (hr : (k.procs i).state = .runnable) {r : Int}
    (hrun : kfork i k = .ok (r, k')) : KforkOut k own i r k' := by
  obtain ⟨root, tf, o, hroot, ho, htf, htask⟩ := h.runnable hr
  unfold kfork at hrun
  obtain ⟨oj, k₁, halloc, hrun⟩ := Halting.bind_eq_ok.mp hrun
  rcases allocproc_spec h halloc with ⟨rfl, hstep, hsame⟩ |
      ⟨j, tf', root', o', rfl, hun, hstep, htask', hacts₁, hempty, hk₁⟩
  · obtain ⟨rfl, rfl⟩ := Halting.pure_eq_ok.mp hrun
    exact .failed hstep hsame
  have hij : j ≠ i := fun hc => absurd ((hc ▸ hun).symm.trans hr) (by decide)
  have hpi : k₁.procs i = k.procs i := by
    rw [hk₁]
    simp [Ne.symm hij]
  have hpj : k₁.procs j = initProc { k.procs j with
      pid := k.nextpid, state := .used, trapframe := some tf', pagetable := some root' } := by
    rw [hk₁]
    simp
  -- the address spaces of parent and child are apart
  have hownj : Function.update own j (insert tf' o') j = insert tf' o' := Function.update_self ..
  have howni : Function.update own j (insert tf' o') i = insert tf o := by
    rw [Function.update_of_ne (Ne.symm hij), ho]
  have htf' : tf' ∉ o' := fun hc => (htask'.space.own_ne _ hc).2 rfl
  obtain ⟨-, happart⟩ := hstep.inv.apart (Ne.symm hij) howni htf (by rw [hpi]; exact hroot)
    (by rw [hpi]; exact htask.trapframe) hownj
  obtain ⟨p, k₂, hget, hrun⟩ := Halting.bind_eq_ok.mp hrun
  cases hget
  obtain ⟨np, k₂, hget, hrun⟩ := Halting.bind_eq_ok.mp hrun
  cases hget
  rw [hpi, hpj, hroot] at hrun
  obtain ⟨rc, k₃, hcopy, hrun⟩ := Halting.bind_eq_ok.mp hrun
  obtain ⟨m₃, hcp, rfl⟩ := onPhys_eq_ok.mp hcopy
  -- a step of the child's slot, the memory of which `uvmcopy` has changed
  have hslot : ∀ {k₂ : Kernel} {o₃ : Set Frame} {p : Proc}, SysStep {j} k own k₂
      (Function.update own j (insert tf' o₃)) ∅ → TaskOk ⟨k₂.mem, p⟩ root' tf' o₃ →
      StateOk p → SysStep {j} k own { k₂ with procs := Function.update k₂.procs j p }
        (Function.update own j (insert tf' o₃)) ∅ := by
    intro k₂ o₃ p hs htask₂ hstate
    have hself : Function.update own j (insert tf' o₃) j = insert tf' o₃ := Function.update_self ..
    have hact := hs.inv.actProc (i := j) (o := insert tf' o₃)
      (by rw [hself]; exact Mem.Acts.refl (hself ▸ hs.inv.owned j)) (.live htask₂) hstate
    rw [Function.update_idem] at hact
    simpa using hs.trans hact
  have hcopied : ∀ {o₃ : Set Frame}, k₁.mem.Acts o' m₃ o₃ → UserSpace m₃ root' tf' o₃ →
      SysStep {j} k own { k₁ with mem := m₃ } (Function.update own j (insert tf' o₃)) ∅ := by
    intro o₃ hacts hspace
    have htask₃ : TaskOk ⟨m₃, k₁.procs j⟩ root' tf' o₃ :=
      ⟨htask'.pagetable, htask'.trapframe, hspace, htask'.size, htask'.resident, htask'.swapped⟩
    have hact := hstep.inv.actProc (hstep.inv.acts hownj htf' hacts) (.live htask₃)
      (hstep.inv.state j)
    rw [Function.update_idem, Function.update_eq_self] at hact
    simpa using hstep.trans hact
  rcases uvmcopy_spec happart htask'.space htask.size hempty hcp with
    ⟨rfl, o₃, hspace, hacts, hnone⟩ | ⟨rfl, o₃, hspace, hcd⟩
  · -- the copy failed: `freeproc` finds no user page
    obtain ⟨_, k₄, hfree, hrun⟩ := Halting.bind_eq_ok.mp hrun
    obtain ⟨rfl, rfl⟩ := Halting.pure_eq_ok.mp hrun
    have hs₃ := hcopied hacts hspace
    obtain ⟨-, hother, -⟩ := freeproc_spec hs₃.inv hfree
    have hf := hs₃.inv.freeproc hfree
    have hlost : lostPages m₃ (k₁.procs j) = ∅ := by
      ext a
      simp only [lostPages, Set.mem_ofPred_eq, Set.mem_empty_iff_false, iff_false, not_exists]
      rintro root₂ ⟨hp, ha⟩
      obtain rfl := Option.some.inj (hp.symm.trans htask'.pagetable)
      rw [userPages_empty hspace fun va hva _ => hnone va hva] at ha
      exact ha
    obtain ⟨hownj', -⟩ := h.idle hun
    rw [hlost, Function.update_idem, show Function.update own j ∅ = own by
      rw [← hownj', Function.update_eq_self]] at hf
    have hboth : SysStep {j} k own k₄ own ∅ := by simpa using hs₃.trans hf
    refine .failed (hboth.mono (Set.singleton_subset_iff.mpr hun)) fun l hl => ?_
    have hlj : l ≠ j := fun hc => hl (hc ▸ hun)
    have hpl : k₁.procs l = k.procs l := by
      rw [hk₁]
      simp [hlj]
    rw [← hpl]
    exact (hother l hlj).1
  · -- the references are duplicated, and the child gets its fields
    obtain ⟨_, k₄, hseg, hrun⟩ := Halting.bind_eq_ok.mp hrun
    obtain ⟨_, k₅, hfile, hrun⟩ := Halting.bind_eq_ok.mp hrun
    have hrefs := (refsOnly_dupSegs _ _ _ _ _ hseg).trans (refsOnly_dupFiles _ _ _ _ _ hfile)
    cases hcwd : (k.procs i).cwd with
    | none =>
      rw [hcwd] at hrun
      cases hrun
    | some cwd =>
      rw [hcwd] at hrun
      obtain ⟨_, k₆, hdup, hrun⟩ := Halting.bind_eq_ok.mp hrun
      replace hrefs := hrefs.trans (refsOnly_idup _ _ _ _ hdup)
      obtain ⟨_, k₇, hup, hrun⟩ := Halting.bind_eq_ok.mp hrun
      rw [updProc_apply] at hup
      cases hup
      obtain ⟨rfl, rfl⟩ := Halting.pure_eq_ok.mp hrun
      have hs₆ := (hcopied hcd.acts hspace).trans
        ((hcopied hcd.acts hspace).inv.quiet hrefs.fsOnly.inert.quiet)
      rw [Set.empty_union, Set.union_empty] at hs₆
      have hmem₆ : k₆.mem = m₃ := hrefs.mem
      have hprocs₆ : k₆.procs = k₁.procs := hrefs.procs
      have hchild : childOf i (k.procs i) (k₁.procs j) = newChild k i j tf' root' := by
        rw [newChild, hpj]
      have htask₆ : TaskOk ⟨k₆.mem, newChild k i j tf' root'⟩ root' tf' o₃ := by
        rw [hmem₆]
        exact ⟨rfl, rfl, hspace, htask.size, by simp [newChild, childOf], by simp [newChild,
          childOf]⟩
      have hs₇ := hslot hs₆ htask₆ (stateOk_of_runnable rfl rfl)
      have hprocs : Function.update k₆.procs j (childOf i (k.procs i) (k₆.procs j)) =
          Function.update k.procs j (newChild k i j tf' root') := by
        rw [hprocs₆, hchild, hk₁]
        exact Function.update_idem ..
      have hapart₀ : Apart k.mem root tf o ∅ := ⟨htask.space, fun _ _ => id, id, id⟩
      have hbytes : ∀ va e, va < trapframeVa → k.mem.lookup root va = some e →
          (k₁.mem.phys e.ppn).byte = (k.mem.phys e.ppn).byte := fun va e hva he => by
        rw [hapart₀.phys hacts₁ _ (htask.space.lookup_own he (htask.space.user hva he))]
      rw [← hchild, ← hprocs₆] at hs₇
      refine .child hij hun hroot hs₇ hprocs (fun ip => ?_) (fun va hva hlt => ?_) fun va hva hlt =>
        ?_
      · rw [show k₆.fs.content ip = k₁.fs.content ip from hrefs.content ip, hk₁]
      · have hcopy := hcd.copy va hva hlt
        have hlow : va < trapframeVa := by
          have hsz : (k.procs i).sz ≤ trapframeVa := htask.size
          simp only [trapframeVa, trampolineVa, maxVa, pgSize] at *
          omega
        rw [← hmem₆, hapart₀.lookup hacts₁] at hcopy
        unfold CopyOf at hcopy ⊢
        rw [hcopy]
        cases he : k.mem.lookup root va with
        | none => rfl
        | some e => simp only [Option.map_some, hbytes va e hlow he]
      · rw [show k₆.mem.lookup root' va = m₃.lookup root' va by rw [hmem₆],
          hcd.keep va (by simp only [trapframeVa, trampolineVa, maxVa, pgSize] at *; omega) hlt]
        exact hempty va hva

/-! ## `exec` -/

/-- The kernel when `exec` has the executable `ip` open and locked. -/
structure Opened (k : Kernel) (i : Nat) (path : List UInt8) (ip : Nat) (k₁ : Kernel) : Prop where
  mem : k₁.mem = k.mem
  procs : k₁.procs = k.procs
  found : ∃ k₀, namei i path k = .ok (some ip, k₀) ∧ ilockInode i ip k₀ = .ok ((), k₁)

/-- **The outcomes of `exec`** on the kernel: the path does not resolve, or the image is built
on the open executable. -/
inductive ExecStep (k : Kernel) (own : Nat → Set Frame) (i : Nat) (path : List UInt8)
    (argv : List (List UInt8)) : Int → Kernel → Prop
  | noFile {k' : Kernel} (missing : namei i path k = .ok (none, k')) (quiet : FsOnly k k') :
      ExecStep k own i path argv (-1) k'
  | image {k₁ k' : Kernel} {ip : Nat} {r : Int} {t : Task} {root tf : Frame} {o : Set Frame}
      (opened : Opened k i path ip k₁) (ownership : own i = insert tf o) (notMem : tf ∉ o)
      (task : TaskOk (k.task i) root tf o)
      (out : ExecOut k₁.fs ip argv (k.task i) root tf o r t)
      (closed : FsOnly (k₁.setTask i t) k') : ExecStep k own i path argv r k'

/-- **`exec`** has one of its outcomes. -/
theorem exec_spec (h : SysInv k own) (hr : (k.procs i).state = .runnable) {path : List UInt8}
    {argv : List (List UInt8)} (hargv : ArgvOk argv) {r : Int}
    (hrun : exec i path argv k = .ok (r, k')) : ExecStep k own i path argv r k' := by
  obtain ⟨root, tf, o, hroot, ho, htf, htask⟩ := h.runnable hr
  unfold exec at hrun
  obtain ⟨oip, k₀, hnamei, hrun⟩ := Halting.bind_eq_ok.mp hrun
  have hfs := fsOnly_namei i path _ _ _ hnamei
  cases oip with
  | none =>
    obtain ⟨rfl, rfl⟩ := Halting.pure_eq_ok.mp hrun
    exact .noFile hnamei hfs
  | some ip =>
    obtain ⟨_, k₁, hlock, hrun⟩ := Halting.bind_eq_ok.mp hrun
    have hfs₁ := hfs.trans (fsOnly_ilockInode i ip _ _ _ hlock)
    obtain ⟨r', k₂, hon, hrun⟩ := Halting.bind_eq_ok.mp hrun
    obtain ⟨t, himage, rfl⟩ := onTask_eq_ok.mp hon
    have hk₁ : k₁.task i = k.task i := by rw [Kernel.task, hfs₁.mem, hfs₁.procs]; rfl
    rw [hk₁] at himage
    have hout := execImage_spec hargv htask himage
    have hclosed : r = r' ∧ FsOnly (k₁.setTask i t) k' := by
      split at hrun
      · obtain ⟨_, k₃, hdup, hrun⟩ := Halting.bind_eq_ok.mp hrun
        obtain ⟨_, k₄, hun, hrun⟩ := Halting.bind_eq_ok.mp hrun
        obtain ⟨rfl, rfl⟩ := Halting.pure_eq_ok.mp hrun
        exact ⟨rfl, (refsOnly_idup _ _ _ _ hdup).fsOnly.trans (fsOnly_iunlock i ip _ _ _ hun)⟩
      · obtain ⟨_, k₄, hun, hrun⟩ := Halting.bind_eq_ok.mp hrun
        obtain ⟨rfl, rfl⟩ := Halting.pure_eq_ok.mp hrun
        exact ⟨rfl, fsOnly_iunlock i ip _ _ _ hun⟩
    obtain ⟨rfl, hclosed⟩ := hclosed
    exact .image ⟨hfs₁.mem, hfs₁.procs, k₀, hnamei, hlock⟩ ho htf htask hout hclosed

/-- The arguments do not fit on the stack page of the executable `ip`, which is not page zero and
for which there is memory. -/
def NoRoom (fs : Fs) (ip : Nat) (argv : List (List UInt8)) (m : Mem) (tf : Option Frame) : Prop :=
  ∃ hdr l, elfHdrOf (fs.content ip) = some hdr ∧
    scanHdrs (fs.content ip) hdr.phnum hdr.phoff 0 = (l, true) ∧ stackBase l ≠ 0 ∧
    stackBase l < trapframeVa ∧ stackImage (stackBase l) (stackBase l + pgSize) argv = none ∧
    StackMapped m (tf.getD 0) (stackBase l)

/-- A step that leaves the address space of process `i` as it is, and loses the frames it took. -/
theorem SysInv.setTask_same (h : SysInv k own) {extra : Set Frame}
    (hr : (k.procs i).state = .runnable)
    (hacts : k.mem.Acts ∅ t.mem extra) (hsame : SameSpace (k.procs i) t.p)
    (hstate : t.p.state = (k.procs i).state) :
    SysStep {i} k own (k.setTask i t) own ((extra ∪ own i) \ own i) := by
  have hfr := hacts.frame (h.owned i) fun _ _ hc => hc
  rw [Set.empty_union] at hfr
  obtain ⟨root, tf, o, hroot, ho, htf, htask⟩ := h.runnable hr
  have happart : Apart k.mem root tf o ∅ := ⟨htask.space, fun _ _ => id, id, id⟩
  have htask' : TaskOk ⟨t.mem, k.procs i⟩ root tf o :=
    ⟨htask.pagetable, htask.trapframe, (happart.acts hacts).user, htask.size, htask.resident,
      htask.swapped⟩
  have hstep := h.act (k.setTask i t) hfr Set.subset_union_right
    (by rw [ho]; simpa [Kernel.setTask] using .live (htask'.congr hsame))
    (fun j hj => by simpa [Kernel.setTask, hj] using SameSpace.refl _) fun j => ?_
  · rwa [Function.update_eq_self] at hstep
  · by_cases hj : j = i
    · subst hj
      simpa [Kernel.setTask] using (h.state j).congr hsame (Or.inl hstate)
    · simpa [Kernel.setTask, hj] using h.state j

theorem sameSpace_execProc (p : Proc) (ip : Nat) (l : List ProgHdr) :
    SameSpace p (execProc p ip l) :=
  ⟨rfl, rfl, rfl, rfl, rfl⟩

theorem FsOnly.setTask {k₁ : Kernel} (h : FsOnly k k₁) (t : Task) :
    FsOnly (k.setTask i t) (k₁.setTask i t) := by
  refine ⟨rfl, ?_⟩
  show Function.update k₁.procs i t.p = Function.update k.procs i t.p
  rw [h.procs]

/-- **`exec` as a step of the system**: it loses the pages of the old image above its size, and the
stack page when the arguments do not fit. -/
theorem SysInv.exec (h : SysInv k own) (hr : (k.procs i).state = .runnable) {path : List UInt8}
    {argv : List (List UInt8)} {r : Int} (hs : ExecStep k own i path argv r k') :
    ∃ own' lost, SysStep {i} k own k' own' lost ∧
      (lost = ∅ ∨ lost = lostPages k.mem (k.procs i) ∨
        ∃ ip k₁, Opened k i path ip k₁ ∧
          NoRoom k₁.fs ip argv k.mem (k.procs i).trapframe) := by
  cases hs with
  | noFile missing quiet => exact ⟨own, ∅, (h.quiet quiet.inert.quiet).mono (Set.empty_subset _),
      Or.inl rfl⟩
  | image opened ho htf htask out closed =>
    rename_i k₁ ip t root tf o
    have hfs : FsOnly (k.setTask i t) k' :=
      ((show FsOnly k k₁ from ⟨opened.mem, opened.procs⟩).setTask t).trans closed
    -- what is left to show is the step before the inode is unlocked
    suffices hstep : ∃ own' lost, SysStep {i} k own (k.setTask i t) own' lost ∧ (lost = ∅ ∨
        lost = lostPages k.mem (k.procs i) ∨ ∃ ip k₁, Opened k i path ip k₁ ∧
          NoRoom k₁.fs ip argv k.mem (k.procs i).trapframe) by
      obtain ⟨own', lost, hs, hl⟩ := hstep
      exact ⟨own', lost, by simpa using hs.trans (hs.inv.quiet hfs.inert.quiet), hl⟩
    cases out with
    | noElf bad =>
      refine ⟨own, _, h.setTask_same hr (t := k.task i)
        (Mem.Acts.refl ((h.owned i).mono (Set.empty_subset _))) (SameSpace.refl _) rfl, Or.inl ?_⟩
      simp
    | noTable elf _ acts =>
      refine ⟨own, _, h.setTask_same hr acts (SameSpace.refl _) rfl, Or.inl ?_⟩
      simp
    | bad elf scan _ acts =>
      refine ⟨own, _, h.setTask_same hr acts (sameSpace_execProc _ _ _) rfl, Or.inl ?_⟩
      simp
    | noRoom elf scan base room mapped acts =>
      have htrap : (k.procs i).trapframe = some tf := htask.trapframe
      refine ⟨own, _, h.setTask_same hr acts (sameSpace_execProc _ _ _) rfl, ?_⟩
      split
      · next hz => exact Or.inl (by simp)
      · next hz =>
        refine Or.inr (Or.inr ⟨_, _, opened, _, _, elf, scan, hz, base, room, ?_⟩)
        rw [htrap]
        exact mapped
    | done elf scan base image space disjoint acts stack empty fresh mapped =>
      rename_i hdr l m' root' own' sp argc b
      have hlost : lostPages k.mem (k.procs i) =
          userPages k.mem root (pgRoundUp (k.procs i).sz / pgSize) := by
        ext a
        simp [lostPages, show (k.procs i).pagetable = some root from htask.pagetable]
      have htask' : TaskOk ⟨m', newImage (execProc (k.procs i) ip l) root' (stackBase l + pgSize) sp
          (stackBase l) hdr.entry⟩ root' tf own' := by
        refine ⟨rfl, htask.trapframe, space, ?_, fun e he => ?_, fun e he => ?_⟩
        · show stackBase l + pgSize ≤ trapframeVa
          have := (execStackbase_spec (segEnd l 0)).1
          rw [show execStackbase (execSize (segEnd l 0)) = stackBase l from rfl] at this
          simp only [trapframeVa, trampolineVa, maxVa, pgSize] at *
          omega
        · obtain rfl : e = _ := List.mem_singleton.mp he
          exact ⟨base, (execStackbase_spec (segEnd l 0)).1⟩
        · cases he
      have htfl : tf ∉ userPages k.mem root (pgRoundUp (k.procs i).sz / pgSize) := by
        rintro ⟨va, e, hva, -, he, hu, rfl⟩
        exact htf (htask.space.lookup_own he hu)
      exact ⟨_, _, h.setTask_lost ho htf acts htask' disjoint htfl hr, Or.inr (Or.inl hlost.symm)⟩

/-! ## `wait` -/

/-- **`kwait`**: the copy of the status is a step of the running process; then the child, if any, is
freed. -/
theorem kwait_spec (h : SysInv k own) (hr : (k.procs i).state = .runnable) {addr : Nat} {r : Int}
    (hrun : kwait i addr k = .ok (r, k')) :
    ∃ k₁ own₁, SysStep {i} k own k₁ own₁ ∅ ∧
    (∀ j, j ≠ i → own₁ j = own j ∧ k₁.procs j = k.procs j) ∧
      (k₁ = k ∨ ∃ root rc t src, (k.procs i).pagetable = some root ∧ addr ≠ 0 ∧ src.length = 4 ∧
        copyout { k.fs with noff := k.fs.noff + 2 } root addr src (k.task i) = .ok (rc, t) ∧
        k₁ = k.setTask i t) ∧
      (r = -1 ∧ k' = k₁ ∨ ∃ j, j ≠ i ∧ (k.procs j).state = .zombie ∧ (k.procs j).parent = some i ∧
        r = (k.procs j).pid ∧ freeproc j k₁ = .ok ((), k')) := by
  unfold kwait at hrun
  rw [Halting.bind_of_ok (Halting.get_apply _)] at hrun
  cases hfind : (List.range nProc).find? fun j =>
      (k.procs j).parent == some i && (k.procs j).state == .zombie with
  | some j =>
    rw [hfind] at hrun
    have hj := List.find?_some hfind
    simp only [Bool.and_eq_true, beq_iff_eq] at hj
    have hji : j ≠ i := fun hc => absurd (hr.symm.trans
      ((congrArg _ (congrArg _ hc.symm)).trans hj.2)) (by decide)
    -- the end of the system call, once the status is copied
    have hend : ∀ {rc : Int} {k₁ : Kernel}, (if rc < 0 then pure (-1) else do
        freeproc j
        pure ((k.procs j).pid : Int) : K Int) k₁ = .ok (r, k') →
        r = -1 ∧ k' = k₁ ∨ ∃ j, j ≠ i ∧ (k.procs j).state = .zombie ∧ (k.procs j).parent = some i ∧
          r = (k.procs j).pid ∧ freeproc j k₁ = .ok ((), k') := by
      intro rc k₁ hrun
      split at hrun
      · obtain ⟨rfl, rfl⟩ := Halting.pure_eq_ok.mp hrun
        exact Or.inl ⟨rfl, rfl⟩
      · obtain ⟨_, k₂, hfree, hrun⟩ := Halting.bind_eq_ok.mp hrun
        obtain ⟨rfl, rfl⟩ := Halting.pure_eq_ok.mp hrun
        exact Or.inr ⟨j, hji, hj.2, hj.1, rfl, hfree⟩
    dsimp only at hrun
    split at hrun
    · next haddr =>
      obtain ⟨rc, k₁, hcopy, hrun⟩ := Halting.bind_eq_ok.mp hrun
      obtain ⟨t, hout, rfl⟩ := onTask_eq_ok.mp hcopy
      obtain ⟨root, tf, o, hroot, ho, htf, htask⟩ := h.runnable hr
      rw [Halting.bind_of_ok (pagetableOf_apply hroot)] at hout
      obtain ⟨o', hstep⟩ := TaskStep.copyout htask hout
      exact ⟨_, _, h.taskStep ho htf hr hstep,
        fun j hj => ⟨Function.update_of_ne hj .., Function.update_of_ne hj ..⟩,
        Or.inr ⟨root, rc, t, _, hroot, haddr, by simp [leBytes], hout, rfl⟩, hend hrun⟩
    · obtain ⟨rc, k₁, hcopy, hrun⟩ := Halting.bind_eq_ok.mp hrun
      obtain ⟨-, rfl⟩ := Halting.pure_eq_ok.mp hcopy
      exact ⟨k, own, (SysStep.refl h).mono (Set.empty_subset _), fun _ _ => ⟨rfl, rfl⟩,
        Or.inl rfl, hend hrun⟩
  | none =>
    rw [hfind] at hrun
    refine ⟨k, own, (SysStep.refl h).mono (Set.empty_subset _), fun _ _ => ⟨rfl, rfl⟩,
      Or.inl rfl, Or.inl ?_⟩
    dsimp only at hrun
    split at hrun
    · obtain ⟨rfl, rfl⟩ := Halting.pure_eq_ok.mp hrun
      exact ⟨rfl, rfl⟩
    · split at hrun
      · obtain ⟨rfl, rfl⟩ := Halting.pure_eq_ok.mp hrun
        exact ⟨rfl, rfl⟩
      · cases hrun

end Xv6
