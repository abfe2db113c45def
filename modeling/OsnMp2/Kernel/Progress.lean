import OsnMp2.Kernel.ExecFail

/-!
# Progress of a handled page fault

When the fault handler returns 0, `usertrap` lets the process try the access again. The entry for
the page allows it when the page was loaded just now with the right permissions: those of its
segment, or all of them for a swapped, heap or stack page. A page that was mapped already is not
looked at again: unless the access is a write, the handler returns 0 whatever `PTE_U`, `PTE_R` and
`PTE_X` say, and an access that the entry forbids faults for ever.

## Main definitions

* `Access`: the kinds of access
* `Allows`: the page table lets the user make the access

## Main results

* `handled_fault_iff`: when a handled fault makes progress
* `handled_fault_stuck`: an instruction fetch from the stack, handled and forbidden
-/

namespace Xv6

variable {k : Kernel} {i va : Nat} {root tf : Frame} {o : Set Frame} {t t' : Task}

/-- The kinds of access that fault. -/
inductive Access
  | read | write | fetch
deriving DecidableEq, Repr

/-- `is_write`, as `usertrap` finds it in `scause`. -/
def Access.isWrite (acc : Access) : Bool := acc == .write

/-- `is_exec`, as `usertrap` finds it in `scause`. -/
def Access.isExec (acc : Access) : Bool := acc == .fetch

/-- The permission that an access needs. -/
def Perm.grants (perm : Perm) : Access → Bool
  | .read => perm.r
  | .write => perm.w
  | .fetch => perm.x

/-- The page table lets the user access `va`: its entry is valid and has `PTE_U` and the
permission of the access. -/
def Allows (t : Task) (va : Nat) (acc : Access) : Prop :=
  ∃ root e, t.p.pagetable = some root ∧ va < maxVa ∧ t.mem.lookup root va = some e ∧
    e.perm.u = true ∧ e.perm.grants acc = true

/-- **The condition for progress**, before the fault: the page is mapped and allows the access, or
it is not mapped and is loaded with the permission of the access. -/
def CanProgress (t : Task) (va : Nat) (acc : Access) : Prop :=
  ∃ root, t.p.pagetable = some root ∧
    match t.mem.lookup root va with
    | some e => e.perm.u = true ∧ e.perm.grants acc = true
    | none => (loadPerm t.p va).grants acc = true

/-- A handled fault, by its outcome. -/
theorem Fault.allows_iff {fs : Fs} {w : Bool} {o' : Set Frame} {acc : Access}
    (htask : TaskOk t root tf o)
    (htask' : TaskOk t' root tf o') (hf : Fault fs t va w root o 0 t' o') :
    Allows t' va acc ↔ CanProgress t va acc := by
  have hallows : ∀ e, va < maxVa → t'.mem.lookup root va = some e →
      (Allows t' va acc ↔ e.perm.u = true ∧ e.perm.grants acc = true) := by
    intro e hva he
    constructor
    · rintro ⟨root', e', hp, -, he', hperm⟩
      obtain rfl := Option.some.inj (hp.symm.trans htask'.pagetable)
      obtain rfl := Option.some.inj (he'.symm.trans he)
      exact hperm
    · exact fun hperm => ⟨root, e, htask'.pagetable, hva, he, hperm⟩
  have hcan : CanProgress t va acc ↔ match t.mem.lookup root va with
      | some e => e.perm.u = true ∧ e.perm.grants acc = true
      | none => (loadPerm t.p va).grants acc = true := by
    constructor
    · rintro ⟨root', hp, hc⟩
      obtain rfl := Option.some.inj (hp.symm.trans htask.pagetable)
      exact hc
    · exact fun hc => ⟨root, htask.pagetable, hc⟩
  rw [hcan]
  generalize hr : (0 : Int) = r at hf
  cases hf with
  | beyond | readOnly | invalid | stopped => cases hr
  | present low mapped writable =>
    rw [mapped]
    exact hallows _ low mapped
  | loaded low unmapped valid evict full pageIn =>
    obtain ⟨f, hpage, -⟩ := pageIn.page
    rw [unmapped, hallows _ low hpage]
    exact and_iff_right (loadPerm_u t.p va)

/-- **When a handled fault makes progress**: in every reachable state, for every process,
address and kind of access. -/
theorem handled_fault_iff {acc : Access} (h : Reachable k) (hr : (k.procs i).state = .runnable)
    (hrun : demandPageLoadNew k.fs va acc.isWrite acc.isExec (k.task i) = .ok (0, t')) :
    Allows t' va acc ↔ CanProgress (k.task i) va acc := by
  obtain ⟨own, hinv⟩ := h.sysInv
  obtain ⟨root, tf, o, -, -, -, htask⟩ := hinv.runnable hr
  obtain ⟨o', htask', -, hf⟩ := htask.fault hrun
  exact hf.allows_iff htask htask'

set_option maxRecDepth 100000 in
/-- A read of a page of the data segment is handled, and makes progress. -/
theorem handled_fault_read : ∃ t', demandPageLoadNew afterExec.fs 0x1234 Access.read.isWrite
    Access.read.isExec (afterExec.task 0) = .ok (0, t') ∧ Allows t' 0x1234 .read := by
  have hrun : Halting.passes (demandPageLoadNew afterExec.fs 0x1234 Access.read.isWrite
    Access.read.isExec
      (afterExec.task 0)) (fun r _ => (afterExec.procs 0).pagetable.any fun root =>
        decide (r = 0) && decide ((afterExec.procs 0).state = .runnable) &&
          (afterExec.mem.lookup root 0x1234).isNone &&
          (loadPerm (afterExec.procs 0) 0x1234).r) = true := by
    decide +kernel
  obtain ⟨r, t', hload, hrun⟩ := Halting.passes_eq_true.mp hrun
  obtain ⟨root, hroot, hrun⟩ := (Option.any_eq_true _ _).mp hrun
  simp only [Bool.and_eq_true, decide_eq_true_eq, Option.isNone_iff_eq_none] at hrun
  obtain ⟨⟨⟨rfl, hr⟩, hnone⟩, hperm⟩ := hrun
  refine ⟨t', hload, (handled_fault_iff afterExec_reachable hr hload).mpr ⟨root, hroot, ?_⟩⟩
  rw [show (afterExec.task 0).mem.lookup root 0x1234 = none from hnone]
  exact hperm

set_option maxRecDepth 100000 in
/-- **An instruction fetch from the stack page** is answered with 0, and stays forbidden. -/
theorem handled_fault_stuck : Reachable afterExec ∧ (afterExec.procs 0).state = .runnable ∧
    ∃ t', demandPageLoadNew afterExec.fs 0x4000 Access.fetch.isWrite Access.fetch.isExec
      (afterExec.task 0) = .ok (0, t') ∧ ¬ Allows t' 0x4000 .fetch := by
  have hstate : (afterExec.procs 0).state = .runnable := by decide +kernel
  have hrun : Halting.passes (demandPageLoadNew afterExec.fs 0x4000 Access.fetch.isWrite
    Access.fetch.isExec
      (afterExec.task 0)) (fun r t' => decide (r = 0) &&
        t'.p.pagetable.any fun root => (t'.mem.lookup root 0x4000).any fun e =>
        !e.perm.x) = true := by
    decide +kernel
  refine ⟨afterExec_reachable, hstate, ?_⟩
  obtain ⟨r, t', hload, hrun⟩ := Halting.passes_eq_true.mp hrun
  rw [Bool.and_eq_true, decide_eq_true_eq] at hrun
  obtain ⟨rfl, hrun⟩ := hrun
  obtain ⟨root, hp, hrun⟩ := (Option.any_eq_true _ _).mp hrun
  obtain ⟨e, he, hrun⟩ := (Option.any_eq_true _ _).mp hrun
  refine ⟨t', hload, ?_⟩
  rintro ⟨root', e', hp', -, he', -, hx⟩
  obtain rfl : root = root' := Option.some.inj (hp.symm.trans hp')
  obtain rfl : e = e' := Option.some.inj (he.symm.trans he')
  rw [Bool.not_eq_true'] at hrun
  rw [show e.perm.grants .fetch = e.perm.x from rfl, hrun] at hx
  cases hx

end Xv6
