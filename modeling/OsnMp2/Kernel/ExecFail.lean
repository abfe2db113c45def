import OsnMp2.Kernel.Leak

/-!
# What a failed `exec` leaves behind

`exec` records the segments of the new image in the live `struct proc`, over the segments of the old
one, before it can still fail: once the new page table is there, `lazy_nseg` and `pf_seq` are
cleared, and `bad:` does not bring them back. So a failed `exec` leaves the process as it was
exactly when it failed before that, or when it happened to record the segments that were there.

## Main definitions

* `SamePaging`: the process as the fault handler sees it is unchanged
* `FailsEarly`: `exec` fails before it clears the segments
* `Recorded`: the segments of an executable are those of the process already

## Main results

* `exec_failed_iff`: when a failed `exec` leaves the process as it was
* `exec_failed_clobbers`: a failed `exec` after which a page of the process is not accepted any more
-/

namespace Xv6

variable {k k' k₁ k₂ : Kernel} {i ip ip' : Nat} {p p' : Proc} {path : List UInt8}
  {argv : List (List UInt8)}

/-- **The process is as it was** for the fault handler: page table, size, the recorded segments, the
sequence number, the lists of resident and swapped pages and the bounds. -/
structure SamePaging (p p' : Proc) : Prop where
  pagetable : p'.pagetable = p.pagetable
  sz : p'.sz = p.sz
  lazyNseg : p'.lazyNseg = p.lazyNseg
  lazySegs : ∀ j : Fin 16, j.val < p.lazyNseg → p'.lazySegs j = p.lazySegs j
  pfSeq : p'.pfSeq = p.pfSeq
  resident : p'.resident = p.resident
  swapped : p'.swapped = p.swapped
  lazyHeapStart : p'.lazyHeapStart = p.lazyHeapStart
  lazyStackTop : p'.lazyStackTop = p.lazyStackTop
  lazyMaxAddr : p'.lazyMaxAddr = p.lazyMaxAddr

/-- Page faults are accepted at the same addresses, and load the same bytes with the same
permissions. -/
def SameFaults (p p' : Proc) : Prop :=
  ∀ va, isValid p' va = isValid p va ∧ loadPerm p' va = loadPerm p va ∧
    ∀ fs, loadBytes fs p' va = loadBytes fs p va

theorem SamePaging.refl (p : Proc) : SamePaging p p := by constructor <;> intros <;> rfl

theorem SamePaging.lazySegFind (h : SamePaging p p') (va : Nat) :
    lazySegFind p' va = lazySegFind p va := by
  unfold Xv6.lazySegFind
  rw [h.lazyNseg]
  congr 1
  funext j
  by_cases hj : j.val < p.lazyNseg
  · rw [h.lazySegs j hj]
  · simp [hj]

/-- A segment that is found is one of the recorded ones. -/
theorem lt_of_lazySegFind {va : Nat} {j : Fin 16} (h : lazySegFind p va = some j) :
    j.val < p.lazyNseg := by
  have hj := List.find?_some h
  simp only [Bool.and_eq_true, decide_eq_true_eq] at hj
  exact hj.1.1

/-- **Later page faults** of a process that is as it was are resolved as they would have been. -/
theorem SamePaging.sameFaults (h : SamePaging p p') : SameFaults p p' := by
  intro va
  have hswap : swapEntry p' (pgRoundDown va) = swapEntry p (pgRoundDown va) := by
    unfold swapEntry
    rw [h.swapped]
  refine ⟨?_, ?_, fun fs => ?_⟩
  · unfold isValid faultSeg inHeap inStack
    rw [swapSlotOf_eq, swapSlotOf_eq, hswap, h.lazySegFind, h.sz, h.lazyHeapStart]
  · unfold loadPerm
    rw [hswap, h.lazySegFind]
    cases swapEntry p (pgRoundDown va) with
    | some e => rfl
    | none =>
      cases hfind : Xv6.lazySegFind p va with
      | none => rfl
      | some j =>
        dsimp only
        rw [h.lazySegs j (lt_of_lazySegFind hfind)]
  · unfold loadBytes backing
    rw [hswap, h.lazySegFind]
    cases hfind : Xv6.lazySegFind p va with
    | none => rfl
    | some j =>
      dsimp only
      rw [h.lazySegs j (lt_of_lazySegFind hfind)]

/-- The segments of the executable `ip` are the ones recorded in the process already, and no page
was loaded since `pf_seq` was cleared. -/
structure Recorded (p : Proc) (ip : Nat) (l : List ProgHdr) : Prop where
  pfSeq : p.pfSeq = 0
  length : p.lazyNseg = l.length
  seg : ∀ (j : Fin 16) ph, l[j.val]? = some ph → p.lazySegs j = ph.seg ip

/-- `exec` fails before it clears the segments: the path does not resolve, the file is not an
executable, or there is no memory for a page table. -/
def FailsEarly (k : Kernel) (i : Nat) (path : List UInt8) : Prop :=
  (∃ k', namei i path k = .ok (none, k')) ∨
    ∃ ip k₁, Opened k i path ip k₁ ∧ (elfHdrOf (k₁.fs.content ip) = none ∨
      ∃ m', procPagetable ((k.procs i).trapframe.getD 0) k.mem = .ok (none, m'))

/-- The path resolves to an executable whose segments are recorded already. -/
def AlreadyRecorded (k : Kernel) (i : Nat) (path : List UInt8) : Prop :=
  ∃ ip k₁ hdr, Opened k i path ip k₁ ∧ elfHdrOf (k₁.fs.content ip) = some hdr ∧
    Recorded (k.procs i) ip (scanHdrs (k₁.fs.content ip) hdr.phnum hdr.phoff 0).1

theorem Opened.unique (h : Opened k i path ip k₁) (h' : Opened k i path ip' k₂) :
    ip = ip' ∧ k₁ = k₂ := by
  obtain ⟨k₀, hname, hlock⟩ := h.found
  obtain ⟨k₀', hname', hlock'⟩ := h'.found
  rw [hname] at hname'
  obtain ⟨hip, rfl⟩ := Prod.mk.inj (Except.ok.inj hname')
  obtain rfl := Option.some.inj hip
  rw [hlock] at hlock'
  exact ⟨rfl, (Prod.mk.inj (Except.ok.inj hlock')).2⟩

/-- The process that a late failure leaves is as it was when the segments were there already. -/
theorem samePaging_execProc_iff {l : List ProgHdr} :
    SamePaging p (execProc p ip l) ↔ Recorded p ip l := by
  have hseg : ∀ j : Fin 16, (execProc p ip l).lazySegs j =
      l[j.val]?.elim (p.lazySegs j) fun ph => ph.seg ip := by
    intro j
    unfold execProc recordProc setSegs
    dsimp only
    rw [if_pos (Nat.zero_le j.val), Nat.sub_zero]
    cases l[j.val]? with
    | none => rfl
    | some ph => rfl
  have hn : (execProc p ip l).lazyNseg = l.length := Nat.zero_add _
  constructor
  · intro h
    refine ⟨h.pfSeq.symm, h.lazyNseg.symm.trans hn, fun j ph hph => ?_⟩
    have hj : j.val < p.lazyNseg := by
      rw [← h.lazyNseg, hn]
      exact (List.getElem?_eq_some_iff.mp hph).1
    have hsame := h.lazySegs j hj
    rw [hseg, hph] at hsame
    exact hsame.symm
  · intro h
    refine ⟨rfl, rfl, hn.trans h.length.symm, fun j _ => ?_, h.pfSeq.symm, rfl, rfl, rfl, rfl, rfl⟩
    rw [hseg]
    cases hph : l[j.val]? with
    | none => rfl
    | some ph => exact (h.seg j ph hph).symm

/-- **When a failed `exec` leaves the process as it was**: when it failed before it cleared the
segments, or recorded the ones that were there. -/
theorem exec_failed_iff (h : Reachable k) (hr : (k.procs i).state = .runnable) (hargv : ArgvOk argv)
    (hrun : exec i path argv k = .ok (-1, k')) :
    (SamePaging (k.procs i) (k'.procs i) ∧ SameFaults (k.procs i) (k'.procs i)) ↔
      FailsEarly k i path ∨ AlreadyRecorded k i path := by
  rw [and_iff_left_of_imp SamePaging.sameFaults]
  obtain ⟨own, hinv⟩ := h.sysInv
  cases exec_spec hinv hr hargv hrun with
  | noFile missing quiet =>
    rw [quiet.procs]
    exact iff_of_true (SamePaging.refl _) (Or.inl (Or.inl ⟨k', missing⟩))
  | image opened ho htf htask out closed =>
    rename_i k₁ ip t root tf o
    have hp' : k'.procs i = t.p := by
      rw [closed.procs]
      exact Function.update_self ..
    have htrap : (k.procs i).trapframe.getD 0 = tf := by
      rw [show (k.procs i).trapframe = some tf from htask.trapframe]
      rfl
    rw [hp']
    -- a failure after the segments were cleared
    have hlate : ∀ {hdr : ElfHdr} {l : List ProgHdr} {through : Bool},
        elfHdrOf (k₁.fs.content ip) = some hdr →
        scanHdrs (k₁.fs.content ip) hdr.phnum hdr.phoff 0 = (l, through) →
        (∃ new m₁, procPagetable tf k.mem = .ok (some new, m₁)) →
        (SamePaging (k.procs i) (execProc (k.procs i) ip l) ↔
          FailsEarly k i path ∨ AlreadyRecorded k i path) := by
      rintro hdr l through helf hscan ⟨new, m₁, htable⟩
      rw [samePaging_execProc_iff]
      constructor
      · intro hrec
        refine Or.inr ⟨ip, k₁, hdr, opened, helf, ?_⟩
        rw [hscan]
        exact hrec
      · rintro ((⟨k₂, hnone⟩ | ⟨ip', k₂, hop, hcase⟩) | ⟨ip', k₂, hdr', hop, helf', hrec⟩)
        · obtain ⟨k₀, hsome, -⟩ := opened.found
          rw [hsome] at hnone
          cases hnone
        · obtain ⟨rfl, rfl⟩ := opened.unique hop
          rcases hcase with hnone | ⟨m', hnone⟩
          · rw [helf] at hnone
            cases hnone
          · rw [htrap, htable] at hnone
            cases hnone
        · obtain ⟨rfl, rfl⟩ := opened.unique hop
          obtain rfl := Option.some.inj (helf.symm.trans helf')
          rw [hscan] at hrec
          exact hrec
    generalize hr' : (-1 : Int) = r at out
    cases out with
    | noElf bad =>
      exact iff_of_true (SamePaging.refl _) (Or.inl (Or.inr ⟨ip, k₁, opened, Or.inl bad⟩))
    | noTable elf table acts =>
      exact iff_of_true (SamePaging.refl _)
        (Or.inl (Or.inr ⟨ip, k₁, opened, Or.inr ⟨_, htrap ▸ table⟩⟩))
    | bad elf scan table acts => exact hlate elf scan table
    | noRoom elf scan base room mapped acts =>
      obtain ⟨new, m₁, htable, -⟩ := mapped
      exact hlate elf scan ⟨new, m₁, htable⟩
    | done => exact absurd hr' (by omega)

/-- A process whose second `exec` of its program has failed behind the recording of the segments. -/
@[irreducible] def afterFailed : Kernel :=
  stateAfter (machine 60 [smallProgram]) [(0, .exec [47, 97] [[97]]), (0, .exec [47, 97] longArgs)]

set_option maxRecDepth 100000 in
theorem afterFailed_reachable : Reachable afterFailed := by
  unfold afterFailed
  exact reachable_of_stateAfter (machine_boot (by decide) _) (by decide +kernel)

theorem argvOk_longArgs : ArgvOk longArgs := fun s hs => by
  simp only [longArgs, List.mem_cons, List.not_mem_nil, or_false, or_self] at hs
  rw [hs, List.length_replicate]
  decide

set_option maxRecDepth 100000 in
/-- An `exec` that fails late, for want of room for its arguments, records the segments that
are there already: the process is as it was. Before, where its `pf_seq` was not zero, the
same call has changed it. -/
theorem exec_failed_again : (∃ k', exec 0 [47, 97] longArgs afterFailed = .ok (-1, k') ∧
      AlreadyRecorded afterFailed 0 [47, 97] ∧ SamePaging (afterFailed.procs 0) (k'.procs 0)) ∧
    ∃ k', exec 0 [47, 97] longArgs afterExec = .ok (-1, k') ∧
      ¬ (FailsEarly afterExec 0 [47, 97] ∨ AlreadyRecorded afterExec 0 [47, 97]) := by
  constructor
  · have hstate : (afterFailed.procs 0).state = .runnable := by decide +kernel
    have hrun : Halting.passes (namei 0 [47, 97] afterFailed) (fun ip k₀ => ip.elim false fun ip =>
        Halting.passes (ilockInode 0 ip k₀) fun _ k₁ =>
          (elfHdrOf (k₁.fs.content ip)).elim false fun hdr =>
          Halting.passes (exec 0 [47, 97] longArgs afterFailed) fun r _ => decide (r = -1) &&
            decide ((afterFailed.procs 0).pfSeq = 0) &&
            decide ((afterFailed.procs 0).lazyNseg =
              (scanHdrs (k₁.fs.content ip) hdr.phnum hdr.phoff 0).1.length) &&
            decide (∀ j : Fin 16,
              ∀ ph ∈ (scanHdrs (k₁.fs.content ip) hdr.phnum hdr.phoff 0).1[j.val]?,
              (afterFailed.procs 0).lazySegs j = ph.seg ip)) = true := by
      decide +kernel
    obtain ⟨_ | ip, k₀, hnamei, hrun⟩ := Halting.passes_eq_true.mp hrun
    · cases hrun
    obtain ⟨_, k₁, hlock, hrun⟩ := Halting.passes_eq_true.mp hrun
    cases helf : elfHdrOf (k₁.fs.content ip) with
    | none =>
      rw [helf] at hrun
      cases hrun
    | some hdr =>
      rw [helf] at hrun
      obtain ⟨r, k', hexec, hrun⟩ := Halting.passes_eq_true.mp hrun
      simp only [Bool.and_eq_true, decide_eq_true_eq] at hrun
      obtain ⟨⟨⟨rfl, hseq⟩, hlength⟩, hsegs⟩ := hrun
      have hfs := (fsOnly_namei 0 _ _ _ _ hnamei).trans (fsOnly_ilockInode 0 ip _ _ _ hlock)
      have hrecorded : AlreadyRecorded afterFailed 0 [47, 97] :=
        ⟨ip, k₁, hdr, ⟨hfs.mem, hfs.procs, k₀, hnamei, hlock⟩, helf, hseq, hlength, hsegs⟩
      exact ⟨k', hexec, hrecorded,
        ((exec_failed_iff afterFailed_reachable hstate argvOk_longArgs hexec).mpr
         (Or.inr hrecorded)).1⟩
  · have hstate : (afterExec.procs 0).state = .runnable := by decide +kernel
    have hrun : Halting.passes (exec 0 [47, 97] longArgs afterExec) (fun r k' =>
        decide (r = -1) && decide ((k'.procs 0).pfSeq ≠ (afterExec.procs 0).pfSeq)) = true := by
          decide +kernel
    obtain ⟨r, k', hexec, hrun⟩ := Halting.passes_eq_true.mp hrun
    rw [Bool.and_eq_true, decide_eq_true_eq, decide_eq_true_eq] at hrun
    obtain ⟨rfl, hchanged⟩ := hrun
    exact ⟨k', hexec, fun hcond => hchanged
      ((exec_failed_iff afterExec_reachable hstate argvOk_longArgs hexec).mpr hcond).1.pfSeq⟩

/-- A process that has executed the first of two programs; the second one has one page of text. -/
@[irreducible] def twoPrograms : Kernel :=
  stateAfter (machine 60 [smallProgram, elfFile [progHdrBytes 5 0 0 0x1000 0x1000]])
    [(0, .exec [47, 97] [[97]])]

set_option maxRecDepth 100000 in
theorem twoPrograms_reachable : Reachable twoPrograms := by
  unfold twoPrograms
  exact reachable_of_stateAfter (machine_boot (by decide) _) (by decide +kernel)

set_option maxRecDepth 100000 in
/-- **A failed `exec` of the second program** leaves its one segment behind: the data of the first
one is not accepted by the fault handler any more. -/
theorem exec_failed_clobbers : ∃ k', Reachable twoPrograms ∧ ArgvOk longArgs ∧
    exec 0 [47, 98] longArgs twoPrograms = .ok (-1, k') ∧
    ¬ SamePaging (twoPrograms.procs 0) (k'.procs 0) ∧
    isValid (twoPrograms.procs 0) 0x1000 = true ∧ isValid (k'.procs 0) 0x1000 = false := by
  have hrun : (match exec 0 [47, 98] longArgs twoPrograms with
      | .ok (r, k') => decide (r = -1) && isValid (twoPrograms.procs 0) 0x1000 &&
          !isValid (k'.procs 0) 0x1000
      | .error _ => false) = true := by decide +kernel
  split at hrun
  · next r k' hexec =>
    simp only [Bool.and_eq_true, decide_eq_true_eq, Bool.not_eq_true'] at hrun
    obtain ⟨⟨rfl, hvalid⟩, hinvalid⟩ := hrun
    refine ⟨k', twoPrograms_reachable, argvOk_longArgs, hexec, fun hsame => ?_, hvalid, hinvalid⟩
    rw [(hsame.sameFaults 0x1000).1, hvalid] at hinvalid
    cases hinvalid
  · cases hrun

end Xv6
