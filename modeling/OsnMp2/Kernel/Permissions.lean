import OsnMp2.Kernel.Segments

/-!
# Page permissions and segment flags

A page that is loaded from its segment gets the permissions of the segment's flags. A page that
comes back from swap gets all of them, whatever segment it lies in. A text page gets there when it
is loaded for a write, by a `copyout` that fails only afterwards: it is marked dirty, swapped out
when it is replaced, and writable when it is swapped in.

## Main definitions

* `FollowsFlags`: the entries of the pages in a segment allow no more than its flags
* `LoadWithin`: the condition on a page that a load gives it no more than its segments allow

## Main results

* `permissions_follow`: along every run whose loads meet the condition, the permissions follow the
  flags
* `text_becomes_writable`: a run after which a text page is writable
-/

namespace Xv6

variable {k k' : Kernel} {i j : Nat} {t t' : Task} {p p' : Proc} {root tf : Frame}
  {own own' : Set Frame}

/-- The permissions allow writing and executing only where the flags of the segment do. -/
structure Perm.Within (perm : Perm) (s : LazySeg) : Prop where
  write : perm.w = true → (flags2perm s.flags).w = true
  exec : perm.x = true → (flags2perm s.flags).x = true

/-- The permissions are within the flags of every recorded segment that the page of `va` lies in. -/
def WithinSegs (p : Proc) (va : Nat) (perm : Perm) : Prop :=
  EverySeg (fun s => s.Contains (pgRoundDown va) → perm.Within s) p

/-- **Page permissions follow the segment flags.** -/
def FollowsFlags (t : Task) (root : Frame) : Prop :=
  ∀ va e, va < maxVa → t.mem.lookup root va = some e → e.perm.u = true → WithinSegs t.p va e.perm

/-- The same of the pages below the trap frame, which are those of the user. -/
def FlagsBelow (t : Task) (root : Frame) : Prop :=
  ∀ va e, va < trapframeVa → t.mem.lookup root va = some e → WithinSegs t.p va e.perm

/-- **A load of the page of `va` gives it no more than its segments allow**: a page that lies in a
segment without the bits for writing and executing is neither swapped in nor loaded as a page
outside of the segments, and the segment that it is loaded from has no more bits. -/
def LoadWithin (p : Proc) (va : Nat) : Prop :=
  EverySeg (fun s => s.Contains (pgRoundDown va) →
    ((∃ e ∈ p.swapped, e.va = pgRoundDown va) ∨ lazySegFind p va = none →
      (flags2perm s.flags).w = true ∧ (flags2perm s.flags).x = true) ∧
    ∀ j, (¬ ∃ e ∈ p.swapped, e.va = pgRoundDown va) → lazySegFind p va = some j →
      (flags2perm (p.lazySegs j).flags).Within s) p

/-! ## What one step preserves -/

/-- The permissions of a load under the condition. -/
theorem LoadWithin.loadPerm {va : Nat} (h : LoadWithin p va) : WithinSegs p va (loadPerm p va) := by
  intro j hj hin
  obtain ⟨hfull, hseg⟩ := h j hj hin
  have hswap : (swapEntry p (pgRoundDown va)).isSome = true ↔
      ∃ e ∈ p.swapped, e.va = pgRoundDown va := by
    simp [swapEntry, List.find?_isSome]
  unfold Xv6.loadPerm
  split
  · next i hnone hfind =>
    have hno : ¬ ∃ e ∈ p.swapped, e.va = pgRoundDown va := by
      rw [← hswap, hnone]
      exact Bool.false_ne_true
    obtain ⟨hw, hx⟩ := hseg i hno hfind
    exact ⟨hw, hx⟩
  · next hother =>
    -- swapped, or in no segment
    have hwhy : (∃ e ∈ p.swapped, e.va = pgRoundDown va) ∨ lazySegFind p va = none := by
      rw [← hswap]
      cases hs : swapEntry p (pgRoundDown va) with
      | some e => exact Or.inl rfl
      | none =>
        refine Or.inr (Option.eq_none_iff_forall_not_mem.mpr fun i hi => ?_)
        exact hother i hs hi
    obtain ⟨hw, hx⟩ := hfull hwhy
    exact ⟨fun _ => hw, fun _ => hx⟩

theorem WithinSegs.congr {va va' : Nat} {perm : Perm} (h : WithinSegs p va perm)
    (hpage : pgRoundDown va' = pgRoundDown va) (hsegs : p'.lazySegs = p.lazySegs)
    (hn : p'.lazyNseg = p.lazyNseg) : WithinSegs p' va' perm := by
  have h' : WithinSegs p' va perm := EverySeg.congr h hsegs hn
  unfold WithinSegs at h' ⊢
  rwa [hpage]

/-- What is mapped afterwards was mapped before. -/
theorem FlagsBelow.of_lookup (h : FlagsBelow t root) (hsegs : t'.p.lazySegs = t.p.lazySegs)
    (hn : t'.p.lazyNseg = t.p.lazyNseg)
    (hlook : ∀ va e, va < maxVa → t'.mem.lookup root va = some e → t.mem.lookup root va = some e) :
    FlagsBelow t' root := by
  intro va e hva he
  exact (h va e hva (hlook va e (maxVa_of_trapframeVa hva) he)).congr rfl hsegs hn

/-- **A page fault** under the condition. -/
theorem FlagsBelow.fault {fs : Fs} {va : Nat} {w : Bool} {r : Int}
    (hf : Fault fs t va w root own r t' own')
    (hload : va < maxVa → t.mem.lookup root va = none → r = 0 → LoadWithin t.p va)
    (h : FlagsBelow t root) : FlagsBelow t' root := by
  have himage := hf.sameImage
  cases hf with
  | beyond | readOnly | invalid => exact h
  | present low mapped writable => exact h.of_lookup rfl rfl fun _ _ _ he => he
  | stopped low unmapped valid evict full kept proc =>
    exact h.of_lookup himage.lazySegs himage.lazyNseg fun _ _ hva he =>
      (kept.lookup_eq_some hva he).2
  | loaded low unmapped valid evict full pageIn =>
    intro va' e hva' he
    rcases pageIn.lookup_eq_some (maxVa_of_trapframeVa hva') he with hpage | ⟨-, hold⟩
    · -- the page that was loaded
      obtain ⟨f, hf, -⟩ := pageIn.page
      rw [lookup_of_page hpage, hf] at he
      obtain rfl := Option.some.inj he
      exact (hload low unmapped rfl).loadPerm.congr (pgRoundDown_congr hpage) himage.lazySegs
        himage.lazyNseg
    · exact (h va' e hva' hold).congr rfl himage.lazySegs himage.lazyNseg

/-- **`sbrk`** maps nothing. -/
theorem FlagsBelow.sbrk {n r : Int} (hg : Grow n t root own r t' own') (h : FlagsBelow t root) :
    FlagsBelow t' root := by
  cases hg with
  | refused | same | wrapped => exact h
  | grown => exact h.of_lookup rfl rfl fun _ _ _ he => he
  | shrunk neg heap small unmapped =>
    refine h.of_lookup rfl rfl fun va e hva he => ?_
    by_cases hP : pgRoundUp (shrunkSize t.p.sz n) / pgSize ≤ va / pgSize ∧
        va / pgSize < pgRoundUp t.p.sz / pgSize
    · rw [unmapped.gone va hva hP] at he
      cases he
    · rwa [unmapped.lookup va hva hP] at he

/-- **The loads of the process that is followed meet the condition.** -/
def LoadsWithin (s : Nat × Kernel) : Move → Prop
  | .op i (.fault va w x locks) => i = s.1 → ∀ root t, (s.2.procs i).pagetable = some root →
      va < maxVa → s.2.mem.lookup root va = none →
      demandPageLoadNew { s.2.fs with noff := s.2.fs.noff + locks } va w x (s.2.task i) = .ok (0,
        t) →
      LoadWithin (s.2.procs i) va
  | _ => True

theorem stable_flagsBelow {m : Move} (hC : LoadsWithin (i, k) m) (hj : m = .op i .fork ∨ j = i) :
    Stable FlagsBelow k m k' j where
  congr root t t' hv h := h.of_lookup (congrArg Proc.lazySegs hv.paging :)
    (congrArg Proc.lazyNseg hv.paging :) fun va e _ he => (hv.lookup va).symm.trans he
  fault va locks w x r root tf o o' hm htask _ hrun hf h := by
    subst hm
    obtain rfl : j = i := by
      rcases hj with hc | hc
      · cases hc
      · exact hc
    refine h.fault hf fun hva hnone hr => ?_
    subst hr
    exact hC rfl root _ htask.pagetable hva hnone hrun
  write va bytes root tf o e _ _ _ _ _ _ _ h := h.of_lookup rfl rfl fun va' e' _ he => by
    rwa [lookup_setBytes] at he
  sbrk _ _ _ _ _ _ _ _ _ _ hg h := h.sbrk hg
  child i root root' tf tf' o _ _ htask hproc hcopy hrest h := by
    rw [show k'.task j = ⟨k'.mem, newChild k i j tf' root'⟩ from congrArg (Task.mk k'.mem) hproc]
    intro va e' hva he'
    by_cases hsize : va / pgSize < ((k.procs i).sz + (pgSize - 1)) / pgSize
    · -- the copy of a page of the parent
      have hc := hcopy va (maxVa_of_trapframeVa hva) hsize
      rw [show k'.mem.lookup root' va = some e' from he'] at hc
      obtain ⟨e, he, heq⟩ := Option.map_eq_some_iff.mp hc.symm
      obtain ⟨hperm, -⟩ := Prod.mk.inj heq
      have hold := h va e hva he
      rw [hperm] at hold
      exact hold.congr rfl rfl rfl
    · rw [show k'.mem.lookup root' va = none from hrest va hva hsize] at he'
      cases he'

/-! ## Runs from an `exec` -/

/-- Every user page is below the trap frame. -/
theorem FlagsBelow.followsFlags (h : FlagsBelow t root) (hspace : UserSpace t.mem root tf own) :
    FollowsFlags t root := by
  intro va e hva he hu
  exact h va e (hspace.low_of_user hva he hu) he

/-- The image after `exec`, whose only page is the stack page, readable and writable. -/
theorem FreshImage.flagsBelow {ip : Nat} {l : List ProgHdr} {b : Nat → UInt8}
    (h : FreshImage ip l b t root)
    (hstack : EverySeg (fun s => s.Contains (t.p.sz - pgSize) → (flags2perm s.flags).w = true)
      t.p) :
    FlagsBelow t root := by
  intro va e hva he
  have hpage : va / pgSize = stackBase l / pgSize := by
    by_contra hne
    rw [h.empty va hva hne] at he
    cases he
  obtain ⟨f, hf, -⟩ := h.stack
  rw [lookup_of_page hpage, hf] at he
  obtain rfl := Option.some.inj he
  have hbase : pgRoundDown va = t.p.sz - pgSize := by
    rw [pgRoundDown_congr hpage, pgRoundDown_of_aligned (stackBase_aligned l), h.sz.1]
    exact (Nat.add_sub_cancel ..).symm
  intro j hj hin
  rw [hbase] at hin
  exact ⟨fun _ => hstack j hj hin, fun hx => by cases hx⟩

/-- **Page permissions follow the segment flags** along every run after a successful `exec`
in which every load meets the condition, followed in the process or in its children,
without another `exec`. -/
theorem permissions_follow {path : List UInt8} {argv : List (List UInt8)} {r : Int} {ms : List Move}
    (h : SmallReachable k) (hr : (k.procs i).state = .runnable) (hargv : ArgvOk argv)
    (hexec : exec i path argv k = .ok (r, k')) (hok : 0 ≤ r)
    (hstack : EverySeg (fun s => s.Contains ((k'.procs i).sz - pgSize) →
      (flags2perm s.flags).w = true) (k'.procs i))
    {k'' : Kernel} (hrun : Run.Meets Follows LoadsWithin (i, k') ms (j, k'')) :
    ∃ root, (k''.procs j).pagetable = some root ∧ FollowsFlags (k''.task j) root := by
  obtain ⟨hreach, ip, l, b, root, -, -, -, -, -, -, -, -, hfresh⟩ := exec_fresh h hr hargv hexec hok
  have hstart : Follow FlagsBelow (i, k') :=
    ⟨hreach, (tablesOk_reachable hreach).1, root, hfresh.pagetable, hfresh.flagsBelow hstack⟩
  obtain ⟨-, ⟨own, hsys⟩, root', hroot', hflags⟩ := hstart.of_meets hrun
    fun _ _ _ _ _ _ hC _ hj => stable_flagsBelow hC hj
  obtain ⟨tf, o, -, -, htask⟩ := hsys.live hroot'
  exact ⟨root', hroot', hflags.followsFlags htask.space⟩

/-! ## Computing runs of one process -/

/-- The state after a small step that passes the check `c` and in which process `s.1` makes no
`exec` and is not reaped. -/
def nextFollow (c : Nat × Kernel → Move → Bool) (s : Nat × Kernel) (m : Move) :
    Option (Nat × Kernel) :=
  match m with
  | .op _ (.exec _ _) => none
  | m =>
    match nextOp (fun k m => c (s.1, k) m) s.2 m with
    | some k' => if (k'.procs s.1).pagetable.isSome = true then some (s.1, k') else none
    | none => none

theorem meets_of_nextFollow {C : Nat × Kernel → Move → Prop} {c : Nat × Kernel → Move → Bool}
    (hc : ∀ s m, c s m = true → C s m) (s : Nat × Kernel) (m : Move) (s' : Nat × Kernel)
    (h : nextFollow c s m = some s') : C s m ∧ Follows s m s' := by
  obtain ⟨i, k⟩ := s
  unfold nextFollow at h
  split at h
  · cases h
  next hne =>
  split at h
  · next k' hnext =>
    obtain ⟨hcond, hstep⟩ := meets_of_nextOp (C := fun k m => C (i, k) m) (fun k m => hc (i, k) m)
      k m k' hnext
    split at h
    · next halive =>
      obtain rfl := Option.some.inj h
      exact ⟨hcond, .stay hstep (fun path argv heq => hne _ _ _ heq) halive⟩
    · cases h
  · cases h

/-- The check that a page is loaded from the only segment that it lies in. -/
def loadWithinCheck (p : Proc) (va : Nat) : Bool :=
  decide (p.swapped.length = 0) && decide (∀ j : Fin 16, j.val < p.lazyNseg →
    (p.lazySegs j).vaddr ≤ pgRoundDown va →
    pgRoundDown va < u64 ((p.lazySegs j).vaddr + (p.lazySegs j).memsz) → lazySegFind p va = some j)

theorem loadWithin_of_check {va : Nat} (h : loadWithinCheck p va = true) : LoadWithin p va := by
  simp only [loadWithinCheck, Bool.and_eq_true, decide_eq_true_eq, List.length_eq_zero_iff] at h
  obtain ⟨hnil, hown⟩ := h
  intro j hj hin
  have hfind := hown j hj hin.1 hin.2
  refine ⟨?_, fun i _ hi => ?_⟩
  · rintro (⟨e, he, -⟩ | hnone)
    · rw [hnil] at he
      cases he
    · rw [hfind] at hnone
      cases hnone
  · obtain rfl := Option.some.inj (hfind.symm.trans hi)
    exact ⟨id, id⟩

/-- The check of the condition on a step. -/
def loadsWithinCheck (s : Nat × Kernel) : Move → Bool
  | .op i (.fault va _ _ _) => loadWithinCheck (s.2.procs i) va
  | _ => true

theorem loadsWithin_of_check (s : Nat × Kernel) (m : Move) (h : loadsWithinCheck s m = true) :
    LoadsWithin s m := by
  cases m with
  | others => trivial
  | op i o =>
    cases o with
    | fault va w x locks => exact fun _ _ _ _ _ _ _ => loadWithin_of_check h
    | _ => trivial

set_option maxRecDepth 100000 in
/-- A run that loads a text page and a data page, for a write too, and a page of the heap. -/
theorem permissions_follow_loaded :
    ∃ k' ms k'' root, Run.Meets Follows LoadsWithin (0, k') ms (0, k'') ∧
    (k''.procs 0).pagetable = some root ∧
    (k''.procs 0).resident.map (·.va) = [0x4000, 0, 0x1000, 0x5000] ∧
    FollowsFlags (k''.task 0) root := by
  have hrun : (okState (userinit (machine 40 [smallProgram]))).any (fun k =>
      Halting.passes (exec 0 [47, 97] [[97]] k) fun r k' =>
        (Run.after (nextFollow loadsWithinCheck)
            [.op 0 (.fault 0 false true 0), .op 0 (.fault 0x1234 true false 0),
             .op 0 (.sbrk 0x1000),
              .op 0 (.fault 0x5678 true false 0)] (0, k')).any fun s =>
          decide (s.1 = 0) && decide ((k.procs 0).state = .runnable) && decide (0 ≤ r) &&
            decide (∀ j : Fin 16, j.val < (k'.procs 0).lazyNseg →
              u64 (((k'.procs 0).lazySegs j).vaddr + ((k'.procs 0).lazySegs j).memsz) ≤
                (k'.procs 0).sz - pgSize) &&
            decide ((s.2.procs 0).resident.map (·.va) = [0x4000, 0, 0x1000, 0x5000])) = true := by
    decide +kernel
  obtain ⟨k, hinit, hrun⟩ := (Option.any_eq_true _ _).mp hrun
  obtain ⟨r, k', hexec, hrun⟩ := Halting.passes_eq_true.mp hrun
  obtain ⟨⟨i, k''⟩, hops, hrun⟩ := (Option.any_eq_true _ _).mp hrun
  simp only [Bool.and_eq_true, decide_eq_true_eq] at hrun
  obtain ⟨⟨⟨⟨rfl, hr⟩, hok⟩, hend⟩, hres⟩ := hrun
  have hmeets := Run.meets_of_after (meets_of_nextFollow loadsWithin_of_check) _ (.nil (0, k')) hops
  obtain ⟨root, hroot, hflags⟩ := permissions_follow (smallReachable_init (by decide) hinit) hr
    argvOk_one hexec hok (fun s hs hin => absurd hin.2 (Nat.not_lt.mpr (hend s hs))) hmeets
  exact ⟨k', _, k'', root, hmeets, hroot, hres, hflags⟩

/-- The steps of a process on a machine with little memory: a `copyout` to its text page loads it
for a write, the page is replaced and swapped out as the heap is written, and it is read again. -/
def textMoves : List Move :=
  [.op 0 (.fault 0 true false 0), .op 0 (.sbrk 0x8000), .op 0 (.fault 0x5000 true false 0),
    .op 0 (.fault 0x6000 true false 0), .op 0 (.fault 0x7000 true false 0),
    .op 0 (.fault 0x8000 true false 0), .op 0 (.fault 0 false false 0)]

set_option maxRecDepth 100000 in
/-- **A text page becomes writable**: after these steps the entry of page zero has the permission to
write, and its segment has not. -/
theorem text_becomes_writable : ∃ k k' k'' r root e, SmallReachable k ∧
    exec 0 [47, 97] [[97]] k = .ok (r, k') ∧ 0 ≤ r ∧
    Run Follows (0, k') textMoves (0, k'') ∧ (k''.procs 0).pagetable = some root ∧
    k''.mem.lookup root 0 = some e ∧ e.perm.u = true ∧ e.perm.w = true ∧
    0 < (k''.procs 0).lazyNseg ∧ ((k''.procs 0).lazySegs 0).Contains 0 ∧
    (flags2perm ((k''.procs 0).lazySegs 0).flags).w = false ∧ ¬ FollowsFlags (k''.task 0) root := by
  have hrun : (okState (userinit (machine 10 [smallProgram]))).any (fun k =>
      Halting.passes (exec 0 [47, 97] [[97]] k) fun r k' =>
        (Run.after (nextFollow fun _ _ => true) textMoves (0, k')).any fun s =>
          (s.2.procs 0).pagetable.any fun root => (s.2.mem.lookup root 0).any fun e =>
            decide (s.1 = 0) && decide (0 ≤ r) && e.perm.u && e.perm.w &&
              decide (0 < (s.2.procs 0).lazyNseg) &&
              decide (((s.2.procs 0).lazySegs 0).vaddr ≤ 0) &&
              decide (0 < u64 (((s.2.procs 0).lazySegs 0).vaddr + ((s.2.procs 0).lazySegs
                0).memsz)) &&
              !(flags2perm ((s.2.procs 0).lazySegs 0).flags).w) = true := by decide +kernel
  obtain ⟨k, hinit, hrun⟩ := (Option.any_eq_true _ _).mp hrun
  obtain ⟨r, k', hexec, hrun⟩ := Halting.passes_eq_true.mp hrun
  obtain ⟨⟨i, k''⟩, hops, hrun⟩ := (Option.any_eq_true _ _).mp hrun
  obtain ⟨root, hroot, hrun⟩ := (Option.any_eq_true _ _).mp hrun
  obtain ⟨e, he, hrun⟩ := (Option.any_eq_true _ _).mp hrun
  simp only [Bool.and_eq_true, decide_eq_true_eq, Bool.not_eq_true'] at hrun
  obtain ⟨⟨⟨⟨⟨⟨⟨rfl, hok⟩, hu⟩, hw⟩, hn⟩, hstart⟩, hend⟩, hflag⟩ := hrun
  have hmeets := Run.meets_of_after (meets_of_nextFollow (C := fun _ _ => True)
    fun _ _ _ => trivial) _ (.nil (0, k')) hops
  refine ⟨k, k', k'', r, root, e, smallReachable_init (by decide) hinit, hexec, hok, hmeets.run,
    hroot, he, hu, hw, hn, ⟨hstart, hend⟩, hflag, fun hfollow => ?_⟩
  have hwithin := hfollow 0 e (by decide) he hu 0 hn ⟨hstart, hend⟩
  exact absurd ((hwithin.write hw).symm.trans hflag) (by decide)

end Xv6
