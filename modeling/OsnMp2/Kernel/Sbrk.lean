import OsnMp2.Kernel.Returns
import OsnMp2.Kernel.Tables

/-!
# `sbrk` for every argument

`growproc` adds an `int` to an unsigned size, drops entries of the resident list by byte addresses
and unmaps pages by rounded ones. For every argument, also one that is larger than the size of the
process, the size stays between the start of the heap and the limit, and the two ranges agree.

## Main definitions

* `HeapOk`: the heap starts below the size
* `GrowsRight`: what `growproc` has to do

## Main results

* `growproc_right`: it returns and does so, in every reachable state
-/

namespace Xv6

variable {k k' : Kernel} {t t' : Task} {root tf : Frame} {own own' : Set Frame}
    {i : Nat} {n r : Int}

/-! ## The heap -/

/-- The heap starts at or below the size of the process. -/
def HeapOk (t : Task) (_ : Frame) : Prop := t.p.lazyHeapStart ≤ t.p.sz

/-- The limit of `growproc`. -/
def maxHeapEnd : Nat := 100 * 1024 * 1024

/-- A growing size does not wrap. -/
theorem u64_grown (hsz : t.p.sz ≤ trapframeVa) (hpos : 0 < n) (hint : n < 2 ^ 31) :
    u64 (t.p.sz + n.toNat) = t.p.sz + n.toNat := by
  unfold u64
  simp only [trapframeVa, trampolineVa, maxVa, pgSize] at hsz
  omega

theorem HeapOk.sbrk (htask : TaskOk t root tf own) (hint : n < 2 ^ 31)
    (hg : Grow n t root own r t' own') (h : HeapOk t root) : HeapOk t' root := by
  cases hg with
  | refused | same | wrapped => exact h
  | grown pos limit =>
    unfold HeapOk at h ⊢
    dsimp only
    rw [u64_grown htask.size pos hint]
    exact h.trans (Nat.le_add_right _ _)
  | shrunk neg heap small unmapped => exact heap

/-- Every step keeps the heap below the size. -/
theorem preserved_heapOk (m : Move) : Preserved HeapOk k m k' where
  stable j := {
    congr := by
      intro root t t' hv h
      unfold HeapOk at h ⊢
      have hheap : t'.p.lazyHeapStart = t.p.lazyHeapStart :=
        (congrArg Proc.lazyHeapStart hv.paging :)
      have hsz : t'.p.sz = t.p.sz := (congrArg Proc.sz hv.paging :)
      rw [hheap, hsz]
      exact h
    fault := by
      intro va locks w x r root tf o o' _ _ _ _ hf h
      unfold HeapOk at h ⊢
      rw [hf.sameImage.lazyHeapStart, hf.sameImage.sz]
      exact h
    write := fun _ _ _ _ _ _ _ _ _ _ _ _ _ h => h
    sbrk := fun _ _ _ _ _ _ _ hint htask _ hg h => h.sbrk htask hint.2 hg
    child := by
      intro i root root' tf tf' o _ _ _ hproc _ _ h
      show (k'.procs j).lazyHeapStart ≤ (k'.procs j).sz
      rw [hproc]
      exact h }
  exec := by
    intro j path argv r k₁ ip root root' tf o _ _ _ hout _ h
    unfold HeapOk at h ⊢
    generalize k'.task j = t' at hout
    cases hout with
    | noElf | noTable | bad | noRoom => exact h
    | done => exact le_rfl

theorem heapOk_reachable (h : SmallReachable k) :
    (∃ own, SysInv k own) ∧ EveryTask HeapOk k := by
  apply h.everyTask
  · intro t root tf pid hp _
    unfold HeapOk
    have hheap : t.p.lazyHeapStart = 0 := (congrArg Proc.lazyHeapStart hp :)
    rw [hheap]
    exact Nat.zero_le _
  · intro _ m _ _ _ _
    exact preserved_heapOk m

/-! ## What `growproc` does -/

/-- **What `growproc` has to do**: the size stays between the start of the heap and the limit, a
failed call changes nothing, the entries dropped are those of the pages unmapped, and what is below
the new size stays as it is. -/
structure GrowsRight (t : Task) (root : Frame) (r : Int) (t' : Task) : Prop where
  result : r = 0 ∨ r = -1
  heap : t'.p.lazyHeapStart ≤ t'.p.sz
  limit : t'.p.sz ≤ max t.p.sz maxHeapEnd
  failed : r = -1 → t' = t
  mapped : ∀ e ∈ t.p.resident, (t.mem.lookup root e.va).isSome = true
  dropped : t'.p.resident = t.p.resident.filter fun e => (t'.mem.lookup root e.va).isSome
  lookup : ∀ va, va < pgRoundUp t'.p.sz → t'.mem.lookup root va = t.mem.lookup root va
  byte : ∀ va e, va < pgRoundUp t'.p.sz → t.mem.lookup root va = some e →
    (t'.mem.phys e.ppn).byte = (t.mem.phys e.ppn).byte

/-- Nothing is dropped when the page table stays as it is. -/
theorem TablesOk.filter_mapped (h : TablesOk t root) :
    t.p.resident = t.p.resident.filter fun e => (t.mem.lookup root e.va).isSome := by
  refine (List.filter_eq_self.mpr fun e he => ?_).symm
  obtain ⟨pte, hpte⟩ := h.resident_mapped e he
  rw [hpte]
  rfl

/-- A call that leaves the task alone does right. -/
theorem GrowsRight.same (h : TablesOk t root) (hheap : HeapOk t root) (hr : r = 0 ∨ r = -1) :
    GrowsRight t root r t where
  result := hr
  heap := hheap
  limit := le_max_left _ _
  failed _ := rfl
  mapped e he := Option.isSome_iff_exists.mpr (h.resident_mapped e he)
  dropped := h.filter_mapped
  lookup _ _ := rfl
  byte _ _ _ _ := rfl

/-- **Every outcome of `growproc` is right.** -/
theorem Grow.right (htask : TaskOk t root tf own) (htask' : TaskOk t' root tf own')
    (htables : TablesOk t root) (hheap : HeapOk t root) (hint : n < 2 ^ 31)
    (hg : Grow n t root own r t' own') : GrowsRight t root r t' := by
  have hheap' := hheap.sbrk htask hint hg
  cases hg with
  | refused why => exact .same htables hheap (Or.inr rfl)
  | same zero => exact .same htables hheap (Or.inl rfl)
  | wrapped neg large => exact .same htables hheap (Or.inl rfl)
  | grown pos limit =>
    have h := GrowsRight.same htables hheap (Or.inl (rfl : (0 : Int) = 0))
    exact ⟨Or.inl rfl, hheap', limit.trans (le_max_right _ _), by rintro ⟨⟩, h.mapped, h.dropped,
      fun _ _ => rfl, fun _ _ _ _ => rfl⟩
  | shrunk neg heap small unmapped =>
    rename_i m'
    have hsize := htask.size
    have hlow : ∀ {va : Nat}, va < pgRoundUp (shrunkSize t.p.sz n) → va < maxVa ∧
        ¬ (pgRoundUp (shrunkSize t.p.sz n) / pgSize ≤ va / pgSize ∧
          va / pgSize < pgRoundUp t.p.sz / pgSize) := by
      intro va hva
      unfold pgRoundUp u64 at hva ⊢
      simp only [trapframeVa, trampolineVa, maxVa, pgSize] at *
      omega
    refine ⟨Or.inl rfl, hheap', (Nat.le_of_lt small).trans (le_max_left _ _), by rintro ⟨⟩,
      fun e he => Option.isSome_iff_exists.mpr (htables.resident_mapped e he), ?_, fun va hva => ?_,
      fun va e hva he => ?_⟩
    · -- an entry is in the range of bytes exactly when its page is in the range of pages
      apply List.filter_congr
      intro e he
      obtain ⟨hpage, halign⟩ := htask.resident e he
      obtain ⟨pte, hpte⟩ := htables.resident_mapped e he
      have hva : e.va < maxVa := hpage.trans (by decide)
      dsimp only
      by_cases hin : shrunkSize t.p.sz n ≤ e.va ∧ e.va < t.p.sz
      · rw [unmapped.gone e.va hva ?_]
        · simp [hin.1, hin.2]
        · unfold pgRoundUp u64
          simp only [trapframeVa, trampolineVa, maxVa, pgSize] at *
          omega
      · rw [unmapped.lookup e.va hva ?_, hpte]
        · simp
          omega
        · unfold pgRoundUp u64
          simp only [trapframeVa, trampolineVa, maxVa, pgSize] at *
          omega
    · exact unmapped.lookup va (hlow hva).1 (hlow hva).2
    · have he' := (unmapped.lookup va (hlow hva).1 (hlow hva).2).trans he
      have huser : e.perm.u = true := htask.space.user (by
        unfold pgRoundUp u64 at hva
        simp only [trapframeVa, trampolineVa, maxVa, pgSize] at *
        omega) he
      exact unmapped.byte _ fun hf => htask'.space.space.owned.disjoint _ hf
        (htask'.space.lookup_own he' huser)

/-! ## It returns -/

theorem uvmdealloc_returns {m : Mem} (h : UserSpace m root tf own) (hpool : Pool m own)
    {oldsz newsz : Nat}
    (hsz : oldsz ≤ trapframeVa) : Halting.Returns (uvmdealloc root oldsz newsz) m := by
  unfold uvmdealloc
  split
  · exact Halting.returns_pure _
  · next hlt =>
    split
    · next hround =>
      refine Halting.returns_bind (uvmunmap_returns h.space hpool
        (fun va e hva h1 h2 he => ?_) ?_ ?_) fun _ _ _ => Halting.returns_pure _
      · rw [if_pos rfl]
        apply h.user _ he
        unfold pgRoundUp u64 at h1 h2
        simp only [trapframeVa, trampolineVa, maxVa, pgSize] at *
        omega
      · unfold pgRoundUp u64
        simp only [pgSize]
        omega
      · unfold pgRoundUp u64
        simp only [trapframeVa, trampolineVa, maxVa, pgSize] at *
        omega
    · exact Halting.returns_pure _

theorem growproc_returns (htask : TaskOk t root tf own) (hpool : Pool t.mem own) (n : Int) :
    Halting.Returns (growproc n) t := by
  unfold growproc
  refine Halting.returns_bind_of_ok (Halting.get_apply _) ?_
  split
  · split
    · exact Halting.returns_pure _
    · exact Halting.returns_bind (Halting.returns_modify _) fun _ _ _ => Halting.returns_pure _
  · split
    · split
      · exact Halting.returns_pure _
      · refine Halting.returns_bind_of_ok (setProc_apply _ _) ?_
        refine Halting.returns_bind_of_ok (pagetableOf_apply (by exact htask.pagetable)) ?_
        refine Halting.returns_bind (Halting.returns_zoom (uvmdealloc_returns htask.space
          hpool htask.size)) fun _ _ _ => ?_
        exact Halting.returns_bind (Halting.returns_modify _) fun _ _ _ => Halting.returns_pure _
    · exact Halting.returns_pure _

/-- **`growproc` is right for every `int`**: in every reachable state it returns, and it
does what it has to do. -/
theorem growproc_right (h : SmallReachable k) (hp : (k.procs i).pagetable = some root)
    (hint : -2 ^ 31 ≤ n ∧ n < 2 ^ 31) :
    ∃ r t', growproc n (k.task i) = .ok (r, t') ∧ GrowsRight (k.task i) root r t' := by
  obtain ⟨⟨own, hinv⟩, hheap⟩ := heapOk_reachable h
  obtain ⟨tf, o, ho, -, htask⟩ := hinv.live hp
  have hpool : Pool k.mem o := (hinv.pool i).mono (by rw [ho]; exact Set.subset_insert _ _)
  obtain ⟨r, t', hrun⟩ := growproc_returns htask hpool n
  obtain ⟨own', htask', -, hg⟩ := htask.growproc hrun
  exact ⟨r, t', hrun, hg.right htask htask' ((tablesOk_reachable h).2 i root hp)
    (hheap i root hp) hint.2⟩

/-- A process that has executed the program, grown by two pages and written both. -/
@[irreducible] def twoPages : Kernel := stateAfter (machine 60 [smallProgram])
  [(0, .exec [47, 97] [[97]]), (0, .sbrk 0x2000), (0, .fault 0x5000 true false),
   (0, .fault 0x6000 true false)]

set_option maxRecDepth 100000 in
theorem twoPages_reachable : Reachable twoPages := by
  unfold twoPages
  exact reachable_of_stateAfter (machine_boot (by decide) _) (by decide +kernel)

set_option maxRecDepth 100000 in
/-- A shrink by one page, which drops one of the three resident pages, and one by more than
the size of the process. -/
theorem growproc_right_dropped : (∃ root t', growproc (-0x1000) (twoPages.task 0) = .ok (0, t') ∧
      (twoPages.procs 0).resident.length = 3 ∧ t'.p.resident.length = 2 ∧
      GrowsRight (twoPages.task 0) root 0 t') ∧
    ∃ root r t', growproc (-0x7fffffff) (twoPages.task 0) = .ok (r, t') ∧
    GrowsRight (twoPages.task 0) root r t' := by
  have hroot : (twoPages.procs 0).pagetable.isSome = true := by decide +kernel
  obtain ⟨root, hroot⟩ := Option.isSome_iff_exists.mp hroot
  have hrun : Halting.passes (growproc (-0x1000) (twoPages.task 0)) (fun r t' =>
      decide (r = 0) && decide ((twoPages.procs 0).resident.length = 3) &&
        decide (t'.p.resident.length = 2)) =
    true := by decide +kernel
  obtain ⟨r, t', hshrink, hrun⟩ := Halting.passes_eq_true.mp hrun
  simp only [Bool.and_eq_true, decide_eq_true_eq] at hrun
  obtain ⟨⟨rfl, hthree⟩, htwo⟩ := hrun
  obtain ⟨r, t'', hright, hgrows⟩ := growproc_right (n := -0x1000) twoPages_reachable.small
    hroot (by decide)
  rw [hshrink] at hright
  obtain ⟨rfl, rfl⟩ := Prod.mk.inj (Except.ok.inj hright)
  exact ⟨⟨root, t', hshrink, hthree, htwo, hgrows⟩,
    root, growproc_right twoPages_reachable.small hroot (by decide)⟩

end Xv6
