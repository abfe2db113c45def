import OsnMp2.Kernel.System

/-!
# Address spaces stay separate

The system invariant read as isolation: over any interleaving of page faults with eviction and swap,
`sbrk`, `fork`, successful and failed `exec`, `exit` and `wait`, a frame is mapped for the user at
one page of one process at most, and what a process uses is not on the free list.

## Main definitions

* `UsedBy`: the frames that a process uses

## Main results

* `Reachable.separate`: isolation of the address spaces in every reachable state
-/

namespace Xv6

variable {k : Kernel} {own : Nat → Set Frame} {root tf a : Frame} {m : Mem}
    {o : Set Frame} {i : Nat}

/-- The frame `a` is the trap frame of the process in slot `i`, one of its page-table pages, or
mapped in its address space. -/
def UsedBy (k : Kernel) (i : Nat) (a : Frame) : Prop :=
  (k.procs i).trapframe = some a ∨ ∃ root, (k.procs i).pagetable = some root ∧
    (a ∈ tablesOf k.mem root ∨ ∃ va e, va < maxVa ∧ k.mem.lookup root va = some e ∧ e.ppn = a)

/-- What is mapped is a frame of the address space, the trampoline or the trap frame. -/
theorem UserSpace.mapped_own (h : UserSpace m root tf o) {va : Nat} {e : Pte} (hva : va < maxVa)
    (he : m.lookup root va = some e) : e.ppn ∈ o ∨ e.ppn = m.tramp ∨ e.ppn = tf := by
  cases hu : e.perm.u with
  | true => exact Or.inl (h.lookup_own he hu)
  | false =>
    by_cases hlow : va < trapframeVa
    · rw [h.user hlow he] at hu
      cases hu
    · -- only the two pages at the top are left
      have hpage : va / pgSize = trampolineVa / pgSize ∨ va / pgSize = trapframeVa / pgSize := by
        simp only [trapframeVa, trampolineVa, maxVa, pgSize] at *
        omega
      rcases hpage with hp | hp
      · rw [lookup_of_page hp, h.trampoline] at he
        cases he
        exact Or.inr (Or.inl rfl)
      · rw [lookup_of_page hp, h.trapframe] at he
        cases he
        exact Or.inr (Or.inr rfl)

/-- What a process uses, it owns; the trampoline apart, which all processes map. -/
theorem SysInv.used (h : SysInv k own) (hu : UsedBy k i a) : a ∈ own i ∨ a = k.mem.tramp := by
  obtain ⟨oi, ho⟩ : ∃ oi, oi = own i := ⟨_, rfl⟩
  have hproc := h.proc i
  rw [← ho] at hproc ⊢
  cases hproc with
  | idle pagetable trapframe =>
    rcases hu with ht | ⟨root, hp, -⟩
    · rw [trapframe] at ht; cases ht
    · rw [pagetable] at hp; cases hp
  | frame pagetable trapframe =>
    rcases hu with ht | ⟨root, hp, -⟩
    · rw [trapframe] at ht; cases ht; exact Or.inl rfl
    · rw [pagetable] at hp; cases hp
  | live task =>
    rcases hu with ht | ⟨root, hp, hu⟩
    · obtain rfl := Option.some.inj (ht.symm.trans task.trapframe)
      exact Or.inl (Set.mem_insert _ _)
    obtain rfl := Option.some.inj (hp.symm.trans task.pagetable)
    rcases hu with hu | ⟨va, e, hva, he, rfl⟩
    · exact Or.inl (Set.mem_insert_of_mem _ (task.space.space.tables_subset hu))
    · rcases task.space.mapped_own hva he with hc | hc | hc
      · exact Or.inl (Set.mem_insert_of_mem _ hc)
      · exact Or.inr hc
      · exact Or.inl (hc ▸ Set.mem_insert _ _)

/-- A frame mapped for the user is owned. -/
theorem SysInv.user_own (h : SysInv k own) (hp : (k.procs i).pagetable = some root) {va : Nat}
    {e : Pte} (he : k.mem.lookup root va = some e) (hu : e.perm.u = true) : e.ppn ∈ own i := by
  obtain ⟨tf, o, ho, -, htask⟩ := h.live hp
  rw [ho]
  exact Set.mem_insert_of_mem _ (htask.space.lookup_own he hu)

/-- **Address spaces stay separate**, in every reachable state: no frame is mapped for the user at
two pages, of one process or of two; no frame that a process uses is free; and no frame is twice on
the free list, since `kfree` was never called on a free one. -/
theorem Reachable.separate (h : Reachable k) :
    (∀ i j root root' va va' e e', (k.procs i).pagetable = some root →
      (k.procs j).pagetable = some root' → va < maxVa → va' < maxVa →
      k.mem.lookup root va = some e → k.mem.lookup root' va' = some e' →
      e.perm.u = true → e'.perm.u = true → e.ppn = e'.ppn → i = j ∧ va / pgSize = va' / pgSize) ∧
    (∀ i a, UsedBy k i a → a ∉ k.mem.freelist) ∧
    k.mem.freelist.Nodup ∧ k.mem.refreed = false := by
  obtain ⟨own, hinv⟩ := h.sysInv
  refine ⟨fun i j root root' va va' e e' hp hp' hva hva' he he' hu hu' hf => ?_,
    fun i a hused => ?_, hinv.nodup, hinv.refreed⟩
  · have hown := hinv.user_own hp he hu
    have hown' := hinv.user_own hp' he' hu'
    rw [← hf] at hown'
    by_cases hij : i = j
    · subst hij
      obtain rfl := Option.some.inj (hp.symm.trans hp')
      obtain ⟨tf, o, -, -, htask⟩ := hinv.live hp
      exact ⟨rfl, htask.space.space.page_eq hva hva' he he' hf⟩
    · exact absurd hown' (hinv.disjoint i j hij _ hown)
  · rcases hinv.used hused with hc | rfl
    · exact hinv.own_free i a hc
    · exact hinv.tramp_free

/-- A program with a text page and two pages of data, the second one zero. -/
def smallProgram : List UInt8 :=
  elfFile [progHdrBytes 5 0 0 0x1000 0x1000, progHdrBytes 6 0x1000 0x1000 0x1000 0x2000]

/-- Two processes that share a program: the parent has written a page of its data. -/
@[irreducible] def afterFork : Kernel :=
  stateAfter (machine 60 [smallProgram])
    [(0, .exec [47, 97] [[97]]), (0, .fault 0x1234 true false), (0, .store 0x1234 9), (0, .fork)]

set_option maxRecDepth 100000 in
theorem afterFork_reachable : Reachable afterFork := by
  unfold afterFork
  exact reachable_of_stateAfter (machine_boot (by decide) _) (by decide +kernel)

set_option maxRecDepth 100000 in
/-- In that state parent and child have the page at different frames, neither of them free. -/
theorem separate_afterFork :
    (∃ root root' e e', (afterFork.procs 0).pagetable = some root ∧
      (afterFork.procs 1).pagetable = some root' ∧ afterFork.mem.lookup root 0x1234 = some e ∧
      afterFork.mem.lookup root' 0x1234 = some e' ∧ e.ppn ≠ e'.ppn ∧
      e.ppn ∉ afterFork.mem.freelist) := by
  have hsome : (do
      let root ← (afterFork.procs 0).pagetable
      let root' ← (afterFork.procs 1).pagetable
      let e ← afterFork.mem.lookup root 0x1234
      let e' ← afterFork.mem.lookup root' 0x1234
      pure (e.perm.u, e'.perm.u)) = some (true, true) := by decide +kernel
  simp only [Option.bind_eq_bind, Option.bind_eq_some_iff, Option.pure_def, Option.some.injEq,
    Prod.mk.injEq] at hsome
  obtain ⟨root, hp, root', hp', e, he, e', he', hu, hu'⟩ := hsome
  obtain ⟨hsep, hfree, -⟩ := afterFork_reachable.separate
  refine ⟨root, root', e, e', hp, hp', he, he', fun hc => ?_, ?_⟩
  · exact absurd (hsep 0 1 root root' _ _ e e' hp hp' (by decide) (by decide) he he' hu hu' hc).1
      (by decide)
  · exact hfree 0 _ (Or.inr ⟨root, hp, Or.inr ⟨_, e, by decide, he, rfl⟩⟩)

end Xv6
