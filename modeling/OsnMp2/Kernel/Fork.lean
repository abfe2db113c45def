import OsnMp2.Kernel.Progress

/-!
# The memory of a forked child

A process holds its memory in three places: frames that are mapped, the swap array, and the files
its segments are loaded from. `kfork` copies the mapped pages and the segments; the swap array of
the child is empty. So the child has the parent's memory exactly when no page of the parent is
swapped out, or those that are have the content they would be loaded with anyway.

## Main definitions

* `Readable`, `heldByte`: the addresses a process may read, and the bytes it holds there
* `SwapRedundant`: the swapped pages hold nothing but what a fresh load gives

## Main results

* `fork_memory_iff`: when the child has the memory of the parent
* `fork_loses_swapped`: a child that reads zeros where its parent has its arguments
-/

namespace Xv6

variable {k k' : Kernel} {i va : Nat} {root tf : Frame} {o o' : Set Frame} {t t' : Task} {fs : Fs}

/-- A read at `va` is valid: the page is mapped for the user, or the fault handler accepts it. -/
def Readable (t : Task) (va : Nat) : Prop :=
  match t.p.pagetable.bind fun root => t.mem.lookup root va with
  | some e => e.perm.u = true
  | none => isValid t.p va = true

/-- The byte that a process holds at `va`: in the frame of the page, in the swap array, or in the
file of its segment; zero otherwise. -/
def heldByte (fs : Fs) (t : Task) (va : Nat) : UInt8 :=
  match t.p.pagetable.bind fun root => t.mem.lookup root va with
  | some e => (t.mem.phys e.ppn).byte (va % pgSize)
  | none => loadBytes fs t.p va (va % pgSize)

theorem heldByte_of_lookup {e : Pte} (hp : t.p.pagetable = some root)
    (he : t.mem.lookup root va = some e) :
    heldByte fs t va = (t.mem.phys e.ppn).byte (va % pgSize) := by
  simp [heldByte, hp, he]

theorem heldByte_of_none (hp : t.p.pagetable = some root) (he : t.mem.lookup root va = none) :
    heldByte fs t va = loadBytes fs t.p va (va % pgSize) := by
  simp [heldByte, hp, he]

theorem readable_of_lookup {e : Pte} (hp : t.p.pagetable = some root)
    (he : t.mem.lookup root va = some e) : Readable t va ↔ e.perm.u = true := by
  simp [Readable, hp, he]

theorem readable_of_none (hp : t.p.pagetable = some root) (he : t.mem.lookup root va = none) :
    Readable t va ↔ isValid t.p va = true := by
  simp [Readable, hp, he]

/-- **A user load** reads a page that is mapped for the user with `PTE_R`. -/
theorem userLoad_spec {b : UInt8} (hp : t.p.pagetable = some root) (hrun : userLoad t va = some b) :
    ∃ e, va < maxVa ∧ t.mem.lookup root va = some e ∧ e.perm.u = true ∧
      b = (t.mem.phys e.ppn).byte (va % pgSize) := by
  unfold userLoad at hrun
  rw [hp] at hrun
  dsimp only at hrun
  split at hrun
  · cases hrun
  · next hva =>
    split at hrun
    · next e he =>
      split at hrun
      · next hperm =>
        rw [Bool.and_eq_true] at hperm
        cases hrun
        exact ⟨e, by omega, he, hperm.1, rfl⟩
      · cases hrun
    · cases hrun

/-- **The first read** of a page that is not mapped returns, once the fault is handled, the byte
that the process held. -/
theorem userLoad_after_fault {w x : Bool} {b : UInt8} (htask : TaskOk t root tf o)
    (hrun : demandPageLoadNew fs va w x t = .ok (0, t')) (hload : userLoad t' va = some b) :
    b = heldByte fs t va := by
  obtain ⟨o', htask', -, hf⟩ := htask.fault hrun
  obtain ⟨e, hva, he, hu, rfl⟩ := userLoad_spec htask'.pagetable hload
  generalize hr : (0 : Int) = r at hf
  cases hf with
  | beyond | readOnly | invalid | stopped => cases hr
  | present low mapped writable =>
    rw [heldByte_of_lookup htask.pagetable he]
  | loaded low unmapped valid evict full pageIn =>
    obtain ⟨f, hpage, hbyte⟩ := pageIn.page
    obtain rfl := Option.some.inj (hpage.symm.trans he)
    rw [heldByte_of_none htask.pagetable unmapped, ← hbyte]

/-- Without its swap array, every page below the size that is swapped out would be accepted by the
fault handler and loaded with the bytes it has. -/
def SwapRedundant (fs : Fs) (t : Task) : Prop :=
  ∀ va e, va < t.p.sz → (t.p.pagetable.bind fun root => t.mem.lookup root va) = none →
    swapEntry t.p (pgRoundDown va) = some e →
    isValid { t.p with swapped := [] } va = true ∧
    backing fs t.p va (va % pgSize) = e.data (va % pgSize)

/-- The child has the memory of the parent below its size. -/
def SameMemory (fs : Fs) (parent : Task) (fs' : Fs) (child : Task) : Prop :=
  ∀ va, va < parent.p.sz → (Readable child va ↔ Readable parent va) ∧
    (Readable parent va → heldByte fs' child va = heldByte fs parent va)

/-- The child loads its pages as the parent would without its swap array. -/
theorem newChild_isValid (k : Kernel) (i j : Nat) (tf root : Frame) (va : Nat) :
    isValid (newChild k i j tf root) va = isValid { k.procs i with swapped := [] } va := rfl

theorem segPage_congr {fs' : Fs} (hc : ∀ ip, fs'.content ip = fs.content ip) (seg : LazySeg)
    (a : Nat) : segPage fs' seg a = segPage fs seg a := by
  funext n
  unfold segPage
  split
  · cases seg.ip with
    | none => rfl
    | some ip =>
      dsimp only
      rw [hc]
  · rfl

theorem newChild_loadBytes {fs' : Fs} (hc : ∀ ip, fs'.content ip = fs.content ip) (k : Kernel)
    (i j : Nat) (tf root : Frame) (va : Nat) :
    loadBytes fs' (newChild k i j tf root) va = backing fs (k.procs i) va := by
  show backing fs' (newChild k i j tf root) va = _
  unfold backing
  rw [show lazySegFind (newChild k i j tf root) va = lazySegFind (k.procs i) va from rfl]
  cases lazySegFind (k.procs i) va with
  | none => rfl
  | some s => exact segPage_congr hc _ _

/-- A page that is not swapped out does not need the swap array. -/
theorem isValid_of_no_swap {p : Proc} (h : swapEntry p (pgRoundDown va) = none) :
    isValid { p with swapped := [] } va = isValid p va := by
  unfold isValid faultSeg
  rw [swapSlotOf_eq, swapSlotOf_eq, h]
  rfl

/-- **The child has the memory of the parent** exactly when the swapped pages of the parent are
redundant; and what the child holds at an address is what its first read there returns. -/
theorem fork_memory_iff {r : Int} (h : Reachable k) (hr : (k.procs i).state = .runnable)
    (hrun : kfork i k = .ok (r, k')) (hpid : r ≠ -1) :
    ∃ j, (k'.procs j).pid = r ∧ (k'.procs j).parent = some i ∧
      (SameMemory k.fs (k.task i) k'.fs (k'.task j) ↔ SwapRedundant k.fs (k.task i)) ∧
      ∀ va w x t' b, demandPageLoadNew k'.fs va w x (k'.task j) = .ok (0, t') →
        userLoad t' va = some b → b = heldByte k'.fs (k'.task j) va := by
  obtain ⟨own, hinv⟩ := h.sysInv
  obtain ⟨root, tf, o, hroot, -, -, htask⟩ := hinv.runnable hr
  cases kfork_spec hinv hr hrun with
  | failed => exact absurd rfl hpid
  | child ne unused parent step procs content copy rest =>
    rename_i j root₁ root' tf' o'
    obtain rfl := Option.some.inj (hroot.symm.trans parent)
    have hself : k'.procs j = newChild k i j tf' root' := by
      rw [procs, Function.update_self]
    have hpt : (k'.procs j).pagetable = some root' := by rw [hself]; rfl
    obtain ⟨tf₂, o₂, -, -, htask'⟩ := step.inv.live hpt
    refine ⟨j, by rw [hself]; rfl, by rw [hself]; rfl, ?_, fun va w x t' b hf hl =>
      userLoad_after_fault htask' hf hl⟩
    have hchild : (k'.task j).p = newChild k i j tf' root' := hself
    have hparent : (k.task i).p.pagetable = some root := hroot
    -- one address below the size, by where the parent holds it
    have haddr : ∀ va, va < (k.procs i).sz →
        (((Readable (k'.task j) va ↔ Readable (k.task i) va) ∧
          (Readable (k.task i) va → heldByte k'.fs (k'.task j) va = heldByte k.fs (k.task i) va)) ↔
        (k.mem.lookup root va = none → ∀ e, swapEntry (k.procs i) (pgRoundDown va) = some e →
          isValid { k.procs i with swapped := [] } va = true ∧
            backing k.fs (k.procs i) va (va % pgSize) = e.data (va % pgSize))) := by
      intro va hva
      have hsz : (k.procs i).sz ≤ trapframeVa := htask.size
      have hmax : va < maxVa := by
        simp only [trapframeVa, trampolineVa, maxVa, pgSize] at *
        omega
      have hcopy := copy va hmax (by simp only [pgSize] at *; omega)
      unfold CopyOf at hcopy
      cases he : k.mem.lookup root va with
      | some e =>
        -- resident: the child has a copy of the page
        rw [he] at hcopy
        obtain ⟨e', he', heq⟩ := Option.map_eq_some_iff.mp hcopy
        obtain ⟨hperm, hbyte⟩ := Prod.mk.inj heq
        refine iff_of_true ⟨?_, fun _ => ?_⟩ fun hc => by cases hc
        · rw [readable_of_lookup hpt he', readable_of_lookup hparent he, hperm]
        · rw [heldByte_of_lookup hpt he', heldByte_of_lookup hparent he]
          exact congrFun hbyte _
      | none =>
        rw [he] at hcopy
        have he' : k'.mem.lookup root' va = none := Option.map_eq_none_iff.mp hcopy
        rw [readable_of_none hpt he', readable_of_none hparent he, heldByte_of_none hpt he',
          heldByte_of_none hparent he, hchild, newChild_isValid, newChild_loadBytes content]
        change ((isValid { k.procs i with swapped := [] } va = true ↔
          isValid (k.procs i) va = true) ∧
          (isValid (k.procs i) va = true → backing k.fs (k.procs i) va (va % pgSize) =
            loadBytes k.fs (k.procs i) va (va % pgSize))) ↔ _
        cases hsw : swapEntry (k.procs i) (pgRoundDown va) with
        | none =>
          -- not touched: loaded from the same file, or zero
          refine iff_of_true ⟨?_, fun _ => ?_⟩ fun _ e hc => by cases hc
          · rw [isValid_of_no_swap hsw]
          · unfold loadBytes
            rw [hsw]
        | some e =>
          -- swapped out: the parent reads the swap array, the child does not
          have hvalid : isValid (k.procs i) va = true := isValid_iff.mpr (Or.inr (Or.inr (Or.inl
            ⟨e, List.mem_of_find?_eq_some hsw, by simpa using List.find?_some hsw⟩)))
          have hload : loadBytes k.fs (k.procs i) va = e.data := by
            unfold loadBytes
            rw [hsw]
          rw [hload]
          constructor
          · rintro ⟨hiff, hbyte⟩ - e' he'
            obtain rfl := Option.some.inj he'
            exact ⟨hiff.mpr hvalid, hbyte hvalid⟩
          · intro hc
            obtain ⟨hv, hb⟩ := hc rfl e rfl
            exact ⟨iff_of_true hv hvalid, fun _ => hb⟩
    constructor
    · intro hsame va e hva hnone hsw
      rw [hparent, Option.bind_some] at hnone
      exact (haddr va hva).mp (hsame va hva) hnone e hsw
    · intro hred va hva
      refine (haddr va hva).mpr fun hnone e hsw => hred va e hva ?_ hsw
      rw [hparent, Option.bind_some]
      exact hnone

set_option maxRecDepth 100000 in
/-- A child forked right after `exec` has the memory of its parent: no page is swapped out yet. -/
theorem fork_memory_afterExec : ∃ r k' j, kfork 0 afterExec = .ok (r, k') ∧
    (k'.procs j).parent = some 0 ∧ SameMemory afterExec.fs (afterExec.task 0) k'.fs
    (k'.task j) := by
  have hrun : (match kfork 0 afterExec with
      | .ok (r, _) => decide ((afterExec.procs 0).state = .runnable) && decide (r ≠ -1) &&
          (afterExec.procs 0).swapped.isEmpty
      | .error _ => false) = true := by decide +kernel
  split at hrun
  · next r k' hfork =>
    simp only [Bool.and_eq_true, decide_eq_true_eq, List.isEmpty_iff] at hrun
    obtain ⟨⟨hr, hpid⟩, hswapped⟩ := hrun
    obtain ⟨j, -, hparent, hiff, -⟩ := fork_memory_iff afterExec_reachable hr hfork hpid
    refine ⟨r, k', j, hfork, hparent, hiff.mpr fun va e _ _ hsw => ?_⟩
    rw [swapEntry, show (afterExec.task 0).p.swapped = [] from hswapped] at hsw
    cases hsw
  · cases hrun

/-- A machine with 14 pages, where the process and its first child leave no page free: the write
fault of the parent swaps its stack page out, before the child exits and is reaped. -/
@[irreducible] def afterSwap : Kernel := stateAfter (machine 14 [smallProgram])
  [(0, .exec [47, 97] [[97]]), (0, .fork), (0, .fault 0x1000 true false), (1, .exit 0),
   (0, .wait 0)]

set_option maxRecDepth 100000 in
theorem afterSwap_reachable : Reachable afterSwap := by
  unfold afterSwap
  exact reachable_of_stateAfter (machine_boot (by decide) _) (by decide +kernel)

set_option maxRecDepth 100000 in
/-- **A child that loses a swapped page**: the parent holds the first letter of its argument at an
address that it may read, and the child holds zero there. -/
theorem fork_loses_swapped : ∃ r k' j va, Reachable afterSwap ∧
    (afterSwap.procs 0).state = .runnable ∧ kfork 0 afterSwap = .ok (r, k') ∧ r ≠ -1 ∧
    (k'.procs j).pid = r ∧ va < (afterSwap.procs 0).sz ∧
    heldByte afterSwap.fs (afterSwap.task 0) va = 97 ∧ heldByte k'.fs (k'.task j) va = 0 ∧
    ¬ SameMemory afterSwap.fs (afterSwap.task 0) k'.fs (k'.task j) := by
  have hrun : (match kfork 0 afterSwap with
      | .ok (r, k') => decide ((afterSwap.procs 0).state = .runnable) && decide (r ≠ -1) &&
          decide ((k'.procs 1).pid = r) && decide (0x4ff0 < (afterSwap.procs 0).sz) &&
          ((afterSwap.procs 0).pagetable.bind fun root => afterSwap.mem.lookup root
           0x4ff0).isNone &&
          isValid (afterSwap.procs 0) 0x4ff0 &&
          decide (heldByte afterSwap.fs (afterSwap.task 0) 0x4ff0 = 97) &&
          decide (heldByte k'.fs (k'.task 1) 0x4ff0 = 0)
      | .error _ => false) = true := by decide +kernel
  split at hrun
  · next r k' hfork =>
    simp only [Bool.and_eq_true, decide_eq_true_eq, Option.isNone_iff_eq_none] at hrun
    obtain ⟨⟨⟨⟨⟨⟨⟨hr, hpid⟩, hj⟩, hva⟩, hnone⟩, hv⟩, hb⟩, hb'⟩ := hrun
    refine ⟨r, k', 1, 0x4ff0, afterSwap_reachable, hr, hfork, hpid, hj, hva, hb, hb',
      fun hsame => ?_⟩
    have hreadable : Readable (afterSwap.task 0) 0x4ff0 := by
      rw [Readable, show ((afterSwap.task 0).p.pagetable.bind fun root =>
        (afterSwap.task 0).mem.lookup root 0x4ff0) = none from hnone]
      exact hv
    have hbyte := (hsame 0x4ff0 hva).2 hreadable
    rw [hb, hb'] at hbyte
    cases hbyte
  · cases hrun

end Xv6
