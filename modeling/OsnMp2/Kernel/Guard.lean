import OsnMp2.Kernel.Image
import OsnMp2.Kernel.Shrink

/-!
# The guard page below the stack

No entry of the page table marks the guard page: it is a page between the highest segment end and
the stack that none of the validity tests of the fault handler covers. The segments end below it,
the heap and the stack window begin above it as long as the size does not fall below the start of
the heap, and it is never swapped out because it is never mapped.

## Main definitions

* `GuardPage`: the addresses of the guard page
* `Guarded`: the guard page is not mapped, and every fault on it is refused
* `GuardInv`: the invariant behind it

## Main results

* `stable_guardInv`: what one step preserves
* `guard_page`: the guard page along every run after a successful `exec`
-/

namespace Xv6

variable {k k' : Kernel} {i j : Nat} {t t' : Task} {root tf : Frame} {own own' : Set Frame}

/-- The page below the stack page of the image. -/
def GuardPage (p : Proc) (va : Nat) : Prop :=
  p.lazyHeapStart - 2 * pgSize ≤ va ∧ va < p.lazyHeapStart - pgSize

/-- **The guard page is not accessible**: it has no valid entry, and every fault on it is
refused. -/
structure Guarded (t : Task) (root : Frame) : Prop where
  unmapped : ∀ va, GuardPage t.p va → t.mem.lookup root va = none
  refused : ∀ fs va w x, GuardPage t.p va → demandPageLoadNew fs va w x t = .ok (-1, t)

/-- The start of the heap is a page, the guard page below it is vacant, and the size is not below
it. -/
structure GuardInv (t : Task) (root : Frame) : Prop where
  aligned : t.p.lazyHeapStart % pgSize = 0
  room : 2 * pgSize ≤ t.p.lazyHeapStart
  limit : t.p.lazyHeapStart ≤ trapframeVa
  size : t.p.lazyHeapStart ≤ t.p.sz
  vacant : Vacant t.mem root t.p (t.p.lazyHeapStart - 2 * pgSize)

theorem GuardInv.page {va : Nat} (h : GuardInv t root) (hva : GuardPage t.p va) :
    va / pgSize = (t.p.lazyHeapStart - 2 * pgSize) / pgSize := by
  obtain ⟨h1, h2⟩ := hva
  have := h.aligned
  have := h.room
  simp only [pgSize] at *
  omega

theorem GuardInv.low {va : Nat} (h : GuardInv t root) (hva : GuardPage t.p va) : va < maxVa := by
  have hlimit := h.limit
  have := hva.2
  simp only [trapframeVa, trampolineVa, maxVa, pgSize] at *
  omega

/-- **The guard page is not valid**: the heap and the stack window lie above it. -/
theorem GuardInv.invalid {va : Nat} (h : GuardInv t root)
    (hva : va / pgSize = (t.p.lazyHeapStart - 2 * pgSize) / pgSize) (hsz : t.p.sz ≤ trapframeVa) :
    isValid t.p va = false := by
  have hv := h.vacant.of_page hva
  have haligned := h.aligned
  have hroom := h.room
  have hsize := h.size
  rw [← Bool.not_eq_true, isValid_iff]
  rintro (hseg | hheap | ⟨e, he, hea⟩ | hstack)
  · rw [hv.unbacked va rfl] at hseg
    cases hseg
  · simp only [inHeap, Bool.and_eq_true, decide_eq_true_eq] at hheap
    simp only [pgRoundDown, pgSize] at *
    omega
  · exact hv.unswapped e he hea
  · simp only [inStack, Bool.and_eq_true, decide_eq_true_eq] at hstack
    simp only [pgRoundDown, u64, userStack, trapframeVa, trampolineVa, maxVa, pgSize] at *
    omega

/-- **A fault on a page that is not mapped** loads it when the address is valid, and fails
otherwise. -/
theorem demandPageLoadNew_of_unmapped {fs : Fs} {va : Nat} {w x : Bool}
    (hp : t.p.pagetable = some root) (hva : va < maxVa) (hnone : t.mem.lookup root va = none) :
    demandPageLoadNew fs va w x t =
      if isValid t.p va = true then faultLoad fs va w t else .ok (-1, t) := by
  have hva' : pgRoundDown va < maxVa := (pgRoundDown_le va).trans_lt hva
  unfold demandPageLoadNew
  rw [if_neg (Nat.not_le.mpr hva), Halting.bind_of_ok (pagetableOf_apply hp),
    Halting.bind_of_ok (onMem_walk hva'), vpath_pgRoundDown, px_pgRoundDown]
  cases hpt : t.mem.node root (vpath va) with
  | none =>
    dsimp only [Option.map_none]
    rw [Halting.bind_of_ok (Halting.get_apply _)]
    split <;> rfl
  | some pt =>
    have hlook := lookup_of_node hpt
    rw [hnone] at hlook
    dsimp only [Option.map_some]
    rw [Halting.bind_of_ok (onMem_readPte _ _ _), Halting.bind_of_ok (Halting.get_apply _)]
    split at hlook
    · cases hlook
    · next hv =>
      rw [if_neg hv]
      split <;> rfl

/-- A fault on an address that is neither mapped nor valid changes nothing. -/
theorem demandPageLoadNew_invalid {fs : Fs} {va : Nat} {w x : Bool} (hp : t.p.pagetable = some root)
    (hva : va < maxVa) (hnone : t.mem.lookup root va = none) (hinvalid : isValid t.p va = false) :
    demandPageLoadNew fs va w x t = .ok (-1, t) := by
  rw [demandPageLoadNew_of_unmapped hp hva hnone, hinvalid]
  rfl

theorem GuardInv.guarded (h : GuardInv t root) (htask : TaskOk t root tf own) : Guarded t root where
  unmapped _ hva := (h.vacant.of_page (h.page hva)).unmapped
  refused _ _ _ _ hva := demandPageLoadNew_invalid htask.pagetable (h.low hva)
    (h.vacant.of_page (h.page hva)).unmapped (h.invalid (h.page hva) htask.size)

/-! ## What one step preserves -/

theorem Vacant.congr {m m' : Mem} {p p' : Proc} {va : Nat} (h : Vacant m root p va)
    (hlook : ∀ a, m'.lookup root a = m.lookup root a) (hsw : p'.swapped = p.swapped)
    (hsegs : p'.lazySegs = p.lazySegs) (hn : p'.lazyNseg = p.lazyNseg) : Vacant m' root p' va where
  unmapped := (hlook va).trans h.unmapped
  unswapped e he := h.unswapped e (hsw ▸ he)
  unbacked a ha := (lazySegFind_congr hsegs hn a).trans (h.unbacked a ha)

theorem stable_guardInv (m : Move) (j : Nat) : Stable GuardInv k m k' j where
  congr root t t' hv h := by
    have hstart : t'.p.lazyHeapStart = t.p.lazyHeapStart :=
      (congrArg Proc.lazyHeapStart hv.paging :)
    have hsz : t'.p.sz = t.p.sz := (congrArg Proc.sz hv.paging :)
    refine ⟨hstart ▸ h.aligned, hstart ▸ h.room, hstart ▸ h.limit, ?_, ?_⟩
    · rw [hstart, hsz]
      exact h.size
    · rw [hstart]
      exact h.vacant.congr hv.lookup (congrArg Proc.swapped hv.paging :)
        (congrArg Proc.lazySegs hv.paging :) (congrArg Proc.lazyNseg hv.paging :)
  fault va locks w x r root tf o o' _ htask _ _ hf h := by
    have himage := hf.sameImage
    have hlow : (k.task j).p.lazyHeapStart - 2 * pgSize < maxVa := by
      have := h.limit
      simp only [trapframeVa, trampolineVa, maxVa, pgSize] at *
      omega
    have hv := hf.vacant hlow h.vacant fun hpage => h.invalid hpage htask.size
    obtain ⟨h1, h2, h3, h4, -⟩ := h
    rw [← himage.lazyHeapStart] at h1 h2 h3 h4 hv
    rw [← himage.sz] at h4
    exact ⟨h1, h2, h3, h4, hv⟩
  write va bytes root tf o e _ _ _ _ _ _ _ h :=
    ⟨h.aligned, h.room, h.limit, h.size, h.vacant.setBytes _ _ _⟩
  sbrk n r root tf o o' _ _ htask _ hg h := by
    have hlow : (k.task j).p.lazyHeapStart - 2 * pgSize < maxVa := by
      have := h.limit
      simp only [trapframeVa, trampolineVa, maxVa, pgSize] at *
      omega
    have hv := hg.vacant hlow h.vacant
    have hsz := htask.size
    have hstart : (k'.task j).p.lazyHeapStart = (k.task j).p.lazyHeapStart := by
      generalize k'.task j = t' at hg
      cases hg <;> rfl
    have hsize : (k.task j).p.lazyHeapStart ≤ (k'.task j).p.sz := by
      have hsize := h.size
      generalize k'.task j = t' at hg
      cases hg with
      | refused | same | wrapped => exact hsize
      | grown pos limit =>
        simp only [u64, trapframeVa, trampolineVa, maxVa, pgSize] at *
        omega
      | shrunk neg heap small unmapped => exact heap
    obtain ⟨h1, h2, h3, -, -⟩ := h
    rw [← hstart] at h1 h2 h3 hsize hv
    exact ⟨h1, h2, h3, hsize, hv⟩
  child i root root' tf tf' o _ _ htask hproc hcopy hrest h := by
    have hp : (k'.task j).p = newChild k i j tf' root' := hproc
    have hlow : (k.task i).p.lazyHeapStart - 2 * pgSize < trapframeVa := by
      have := h.limit
      have := h.room
      simp only [trapframeVa, trampolineVa, maxVa, pgSize] at *
      omega
    rw [show k'.task j = ⟨k'.mem, newChild k i j tf' root'⟩ from congrArg (Task.mk k'.mem) hproc]
    refine ⟨h.aligned, h.room, h.limit, h.size, ?_, fun e he => ?_, h.vacant.unbacked⟩
    · -- the child has a copy of the page, or nothing there
      show k'.mem.lookup root' ((k.task i).p.lazyHeapStart - 2 * pgSize) = none
      by_cases hc : ((k.task i).p.lazyHeapStart - 2 * pgSize) / pgSize <
          ((k.procs i).sz + (pgSize - 1)) / pgSize
      · have hcopy := hcopy _ (maxVa_of_trapframeVa hlow) hc
        unfold CopyOf at hcopy
        rw [show k.mem.lookup root _ = none from h.vacant.unmapped] at hcopy
        simpa using hcopy
      · exact hrest _ hlow hc
    · cases he

/-! ## The image after `exec` -/

/-- A program whose segments end low enough starts with a guard page. -/
theorem FreshImage.guardInv {ip : Nat} {l : List ProgHdr} {b : Nat → UInt8}
    (h : FreshImage ip l b t root)
    (hfit : ∀ ph ∈ l, pageCeil (ph.vaddr + ph.memsz) + 2 * pgSize ≤ trapframeVa) :
    GuardInv t root := by
  obtain ⟨hceil, hbase, hexact⟩ := stackBase_of_fits hfit
  obtain ⟨hsz, hstart⟩ := h.sz
  have halign : pageCeil (segEnd l 0) % pgSize = 0 := Nat.mul_mod_left _ _
  have hguard : t.p.lazyHeapStart - 2 * pgSize = pageCeil (segEnd l 0) := by omega
  refine ⟨?_, by omega, by omega, by omega, ?_⟩
  · rw [hstart, hbase]
    simp only [pgSize] at *
    omega
  rw [hguard]
  refine ⟨h.empty _ ?_ ?_, fun e he => ?_, fun a ha => ?_⟩
  · simp only [trapframeVa, trampolineVa, maxVa, pgSize] at *
    omega
  · rw [hbase]
    simp only [pgSize] at *
    omega
  · rw [h.tables.2.1] at he
    cases he
  · -- every segment ends at the guard page or below
    refine lazySegFind_of_le ?_ ha
    rw [h.mem_segs (P := fun s => u64 (s.vaddr + s.memsz) ≤ pgRoundDown (pageCeil (segEnd l 0)))]
    intro ph hph
    rw [pgRoundDown_of_aligned halign]
    refine ((segEnd_eq_max l 0).2 ph hph).trans ?_
    unfold pageCeil
    simp only [pgSize]
    omega

/-- **The guard page is never accessible**: along every run after a successful `exec` of a program
whose segments end two pages below the trap frame or lower, followed in the process or in its
children, without another `exec`. -/
theorem guard_page {path : List UInt8} {argv : List (List UInt8)} {r : Int} {ms : List Move}
    (h : SmallReachable k) (hr : (k.procs i).state = .runnable) (hargv : ArgvOk argv)
    (hexec : exec i path argv k = .ok (r, k')) (hok : 0 ≤ r)
    (hfit : ∀ s : Fin 16, s.val < (k'.procs i).lazyNseg →
      pageCeil (((k'.procs i).lazySegs s).vaddr + ((k'.procs i).lazySegs s).memsz) + 2 * pgSize ≤
        trapframeVa)
    {k'' : Kernel} (hrun : Run Follows (i, k') ms (j, k'')) :
    ∃ root, (k''.procs j).pagetable = some root ∧ Guarded (k''.task j) root := by
  obtain ⟨hreach, ip, l, b, root, -, -, -, -, -, -, -, -, hfresh⟩ := exec_fresh h hr hargv hexec hok
  have hinv := hfresh.guardInv
    ((hfresh.mem_segs (P := fun s => pageCeil (s.vaddr + s.memsz) + 2 * pgSize ≤ trapframeVa)).mp
     hfit)
  have hstart : Follow GuardInv (i, k') :=
    ⟨hreach, (tablesOk_reachable hreach).1, root, hfresh.pagetable, hinv⟩
  obtain ⟨-, ⟨own, hsys⟩, root', hroot', hguard⟩ := hstart.of_meets hrun.meets
    fun _ _ m _ j _ _ _ _ => stable_guardInv m j
  obtain ⟨tf, o, -, -, htask⟩ := hsys.live hroot'
  exact ⟨root', hroot', hguard.guarded htask⟩

set_option maxRecDepth 100000 in
/-- The guard page of a child, after a fault of its parent. -/
theorem guard_page_child : ∃ k' ms k'' root, Run Follows (0, k') ms (1, k'') ∧
    (k''.procs 1).pagetable = some root ∧ (k''.procs 1).lazyHeapStart = 0x5000 ∧
    Guarded (k''.task 1) root := by
  have hrun : (okState (userinit (machine 60 [smallProgram]))).any (fun k =>
      Halting.passes (exec 0 [47, 97] [[97]] k) fun r k' =>
        (Op.run 0 k' (.fault 0x1000 true false 0)).any fun k₂ => (Op.run 0 k₂ .fork).any fun k₃ =>
          decide ((k.procs 0).state = .runnable) && decide (0 ≤ r) &&
            decide (∀ j : Fin 16, j.val < (k'.procs 0).lazyNseg →
              pageCeil (((k'.procs 0).lazySegs j).vaddr + ((k'.procs 0).lazySegs j).memsz) +
                2 * pgSize ≤ trapframeVa) &&
            decide ((k'.procs 0).state = .runnable) && decide ((k₂.procs 0).state = .runnable) &&
            (k₂.procs 0).pagetable.isSome && (k₂.procs 1).pagetable.isNone &&
            (k₃.procs 1).pagetable.isSome &&
            decide ((k₃.procs 1).lazyHeapStart = 0x5000)) = true := by
    decide +kernel
  obtain ⟨k, hinit, hrun⟩ := (Option.any_eq_true _ _).mp hrun
  obtain ⟨r, k', hexec, hrun⟩ := Halting.passes_eq_true.mp hrun
  obtain ⟨k₂, hfault, hrun⟩ := (Option.any_eq_true _ _).mp hrun
  obtain ⟨k₃, hfork, hrun⟩ := (Option.any_eq_true _ _).mp hrun
  simp only [Bool.and_eq_true, decide_eq_true_eq, Option.isNone_iff_eq_none] at hrun
  obtain ⟨⟨⟨⟨⟨⟨⟨⟨hr, hok⟩, hfit⟩, hr'⟩, hr₂⟩, halive⟩, hnew⟩, halive'⟩, hstart⟩ := hrun
  have hsteps : Run Follows (0, k') _ (1, k₃) :=
    ((Run.nil _).snoc (.stay (.op hr' (Op.does_of_run hfault)) (by rintro _ _ ⟨⟩) halive)).snoc
      (.child (.op hr₂ (Op.does_of_run hfork)) hnew halive')
  obtain ⟨root, hroot, hguard⟩ := guard_page (smallReachable_init (by decide) hinit) hr
    argvOk_one hexec hok hfit hsteps
  exact ⟨k', _, k₃, root, hsteps, hroot, hstart, hguard⟩

end Xv6
