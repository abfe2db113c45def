import OsnMp2.Kernel.Isolation

/-!
# Where frames are lost

Frames are conserved: what was free when the kernel booted is free or used by a process, as long as
two things do not happen. A page fault maps a page at or above the size of the process (a segment of
a failed `exec`, or a swapped page above the size after a shrink): `freeproc` and `exec` free the
pages below the size only. And `exec` fails because the arguments do not fit on the stack page:
`bad:` frees the new page table with the literal size 1, and so only page zero.

## Main definitions

* `Low`: all user pages are mapped below the size
* `LeakFree`: the condition on a step

## Main results

* `no_leak`: frames are conserved along the runs whose steps meet the condition
* `leak_failed_exec`: a failed `exec` that loses a frame
-/

namespace Xv6

variable {k k' k'' : Kernel} {m m' : Mem} {root tf : Frame} {own : Nat → Set Frame} {i : Nat}
  {o o' : Set Frame} {t t' : Task}

/-! ## Pages below the size -/

/-- All user pages are mapped below the size. -/
def Low (m : Mem) (root : Frame) (sz : Nat) : Prop :=
  ∀ va e, va < maxVa → m.lookup root va = some e → e.perm.u = true →
    va / pgSize < pgRoundUp sz / pgSize

/-- The fault handler accepts the address only below the size; it refuses what is not below `MAXVA`
first. -/
def Within (p : Proc) (va : Nat) : Prop :=
  va < maxVa → isValid p va = true → va / pgSize < pgRoundUp p.sz / pgSize

theorem Low.of_lookup {sz : Nat} (h : Low m root sz)
    (hsub : ∀ va e, va < maxVa → m'.lookup root va = some e → m.lookup root va = some e) :
    Low m' root sz := fun va e hva he hu => h va e hva (hsub va e hva he) hu

theorem Low.userPages {sz : Nat} (h : Low m root sz) :
    userPages m root (pgRoundUp sz / pgSize) = ∅ := by
  ext a
  simp only [Xv6.userPages, Set.mem_ofPred_eq, Set.mem_empty_iff_false, iff_false, not_exists]
  rintro va e ⟨hva, hn, he, hu, -⟩
  exact absurd (h va e hva he hu) (by omega)

/-- The addresses that the fault handler accepts. -/
theorem isValid_iff {p : Proc} {va : Nat} : isValid p va = true ↔
    (lazySegFind p va).isSome ∨ inHeap p (pgRoundDown va) = true ∨
      (∃ e ∈ p.swapped, e.va = pgRoundDown va) ∨ inStack p (pgRoundDown va) = true := by
  have hsw : (swapSlotOf p (pgRoundDown va)).isSome = true ↔
      ∃ e ∈ p.swapped, e.va = pgRoundDown va := by
    simp [swapSlotOf, List.find?_isSome]
  unfold isValid faultSeg
  cases hs : (swapSlotOf p (pgRoundDown va)).isSome with
  | true => simp [hsw.mp hs]
  | false =>
    have hno : ¬ ∃ e ∈ p.swapped, e.va = pgRoundDown va := fun hc => by
      rw [hsw.mpr hc] at hs
      cases hs
    simp only [hno, Bool.false_eq_true, if_false, Bool.or_false, Bool.or_eq_true]
    tauto

/-- A page that begins below the size is below the size. -/
theorem page_lt_of_lt {sz va : Nat} (hsz : sz ≤ trapframeVa) (h : pgRoundDown va < sz) :
    va / pgSize < pgRoundUp sz / pgSize := by
  have hround := (pgRoundUp_of_le hsz).1
  simp only [pgRoundDown, pgSize] at *
  omega

theorem lt_of_inHeap {p : Proc} {a : Nat} (h : inHeap p a = true) : a < p.sz := by
  simp only [inHeap, Bool.and_eq_true, decide_eq_true_eq] at h
  exact h.2

theorem lt_of_inStack {p : Proc} {a : Nat} (h : inStack p a = true) : a < p.sz := by
  simp only [inStack, Bool.and_eq_true, decide_eq_true_eq] at h
  exact h.1

theorem lazySegFind_congr {p p' : Proc} (hs : p'.lazySegs = p.lazySegs)
    (hn : p'.lazyNseg = p.lazyNseg) (va : Nat) : lazySegFind p' va = lazySegFind p va := by
  unfold lazySegFind
  rw [hs, hn]

/-- **A page fault** at an address within the size maps no page above it. -/
theorem Fault.low {fs : Fs} {va : Nat} {w : Bool} {r : Int}
    (hf : Fault fs t va w root o r t' o') (hlow : Low t.mem root t.p.sz) (hw : Within t.p va) :
    Low t'.mem root t'.p.sz := by
  have himage := hf.sameImage
  rw [himage.sz]
  cases hf with
  | beyond | readOnly | present | invalid => exact hlow
  | stopped _ _ _ _ _ kept =>
    exact hlow.of_lookup fun va' e hva he => (kept.lookup_eq_some hva he).2
  | loaded low unmapped valid _ _ pageIn =>
    intro va' e hva he hu
    rcases pageIn.lookup_eq_some hva he with hpage | ⟨-, he'⟩
    · rw [hpage]
      exact hw low valid
    · exact hlow va' e hva he' hu

/-- A page fault does not make the handler accept addresses above the size. -/
theorem Fault.within {fs : Fs} {va a : Nat} {w : Bool} {r : Int} (htask : TaskOk t root tf o)
    (hf : Fault fs t va w root o r t' o') (htask' : TaskOk t' root tf o')
    (hlow : Low t.mem root t.p.sz) (hw : Within t.p a) : Within t'.p a := by
  have himage := hf.sameImage
  intro hbelow hvalid
  have hsz := htask.size
  rw [himage.sz]
  rcases isValid_iff.mp hvalid with hseg | hheap | ⟨e, he, hea⟩ | hstack
  · rw [lazySegFind_congr himage.lazySegs himage.lazyNseg] at hseg
    exact hw hbelow (isValid_iff.mpr (Or.inl hseg))
  · exact page_lt_of_lt hsz (himage.sz ▸ lt_of_inHeap hheap)
  · -- the entry was there, or is the victim, which was mapped
    rcases hf.mem_swapped he with he' | ⟨pte, hpte⟩
    · exact hw hbelow (isValid_iff.mpr (Or.inr (Or.inr (Or.inl ⟨e, he', hea⟩))))
    · have hpage := htask'.swapped e he
      have hlt : e.va < maxVa := by
        have := hpage.1
        simp only [trapframeVa, trampolineVa, maxVa, pgSize] at *
        omega
      have hin := hlow e.va pte hlt hpte (htask.space.user hpage.1 hpte)
      rw [hea, page_pgRoundDown] at hin
      exact hin
  · exact page_lt_of_lt hsz (himage.sz ▸ lt_of_inStack hstack)

/-- The page bases that a copy of `n` bytes at `va` touches. -/
def touched (va n : Nat) : Set Nat := {b | ∃ a, va ≤ a ∧ a < va + n ∧ b = pgRoundDown a}

theorem touched_self {va n : Nat} (hn : n ≠ 0) : pgRoundDown va ∈ touched va n :=
  ⟨va, le_rfl, by omega, rfl⟩

/-- The next round of a copy touches no other pages. -/
theorem touched_next (va n : Nat) :
    touched (pgRoundDown va + pgSize) (n - inPage va n) ⊆ touched va n := by
  rintro b ⟨a, h1, h2, rfl⟩
  refine ⟨a, ?_, ?_, rfl⟩
  · simp only [pgRoundDown, pgSize] at *
    omega
  · simp only [inPage, pgRoundDown, pgSize] at *
    omega

/-- A step of the running process that keeps its pages below the size, with addresses in `S` that
the fault handler accepts below the size only. -/
structure LowStep (S : Set Nat) (t : Task) (root tf : Frame) (o : Set Frame) (t' : Task)
    (o' : Set Frame) : Prop where
  step : TaskStep t root tf o t' o'
  low : Low t'.mem root t'.p.sz
  within : ∀ a ∈ S, Within t'.p a

theorem LowStep.fault {S : Set Nat} {fs : Fs} {va : Nat} {w x : Bool} {r : Int} {t'' : Task}
    (h : LowStep S t root tf o t' o') (hva : va ∈ S)
    (hrun : demandPageLoadNew fs va w x t' = .ok (r, t'')) :
    ∃ o'', LowStep S t root tf o t'' o'' := by
  obtain ⟨o'', htask, hacts, hf⟩ := h.step.task.fault hrun
  exact ⟨o'', h.step.trans ⟨htask, hacts, hf.sameImage⟩, hf.low h.low (h.within va hva),
    fun a ha => hf.within h.step.task htask h.low (h.within a ha)⟩

theorem LowStep.setBytes {S : Set Nat} (h : LowStep S t root tf o t' o') {va : Nat} {e : Pte}
    (he : t'.mem.lookup root va = some e) (hu : e.perm.u = true) (off : Nat) (bs : List UInt8) :
    LowStep S t root tf o ⟨t'.mem.setBytes e.ppn off bs, t'.p⟩ o' :=
  ⟨h.step.trans (TaskStep.setBytes h.step.task he hu off bs),
    h.low.of_lookup fun va' e' _ he' => by rwa [lookup_setBytes] at he', h.within⟩

/-- **Kernel copies** to addresses within the size map no page above it. -/
theorem LowStep.copyout {fs : Fs} {dst : Nat} {src : List UInt8} {r : Int} (h : TaskOk t root tf o)
    (hlow : Low t.mem root t.p.sz) (hw : ∀ a ∈ touched dst src.length, Within t.p a)
    (hrun : Xv6.copyout fs root dst src t = .ok (r, t')) :
    ∃ o', LowStep (touched dst src.length) t root tf o t' o' := by
  unfold Xv6.copyout at hrun
  obtain ⟨⟨r', rest⟩, t₁, hloop, hrun⟩ := Halting.bind_eq_ok.mp hrun
  obtain ⟨-, rfl⟩ := Halting.pure_eq_ok.mp hrun
  obtain ⟨⟨_, -, o', h'⟩, -⟩ := copyout_induct
    (I := fun d s t' => touched d s.length ⊆ touched dst src.length ∧
      ∃ o', LowStep (touched dst src.length) t root tf o t' o')
    (fun t₁ t₂ d s _ ⟨hsub, o₁, h₁⟩ hs _ _ hf => by
      have hmem := hsub (touched_self fun hc => hs (List.length_eq_zero_iff.mp hc))
      exact ⟨hsub, h₁.fault hmem hf⟩)
    (fun t₁ d s e ⟨hsub, o₁, h₁⟩ _ _ he hu _ => by
      refine ⟨?_, o₁, h₁.setBytes he hu _ _⟩
      rw [List.length_drop]
      exact (touched_next d s.length).trans hsub)
    _ ⟨subset_refl _, o, TaskStep.refl h, hlow, hw⟩ hloop
  exact ⟨o', h'⟩

theorem LowStep.copyin {fs : Fs} {src len : Nat} {r : Int × List UInt8} (h : TaskOk t root tf o)
    (hlow : Low t.mem root t.p.sz) (hw : ∀ a ∈ touched src len, Within t.p a)
    (hrun : Xv6.copyin fs root src len t = .ok (r, t')) :
    ∃ o', LowStep (touched src len) t root tf o t' o' := by
  obtain ⟨_, _, ⟨-, o', h'⟩, -⟩ := copyin_induct
    (I := fun s n _ t' => touched s n ⊆ touched src len ∧
      ∃ o', LowStep (touched src len) t root tf o t' o')
    (fun t₁ t₂ s n _ _ ⟨hsub, o₁, h₁⟩ hn _ _ hf => ⟨hsub, h₁.fault (hsub (touched_self hn)) hf⟩)
    (fun t₁ s n _ e ⟨hsub, hex⟩ _ _ _ _ => ⟨(touched_next s n).trans hsub, hex⟩)
    _ ⟨subset_refl _, o, TaskStep.refl h, hlow, hw⟩ hrun
  exact ⟨o', h'⟩

/-- **`sbrk`** unmaps what it takes away. -/
theorem Grow.low {n r : Int} (hn : -2 ^ 31 ≤ n ∧ n < 2 ^ 31) (hsz : t.p.sz ≤ trapframeVa)
    (hg : Grow n t root o r t' o') (hlow : Low t.mem root t.p.sz) : Low t'.mem root t'.p.sz := by
  cases hg with
  | refused | same | wrapped => exact hlow
  | grown pos limit =>
    have h1 := (pgRoundUp_of_le hsz).1
    have hle : u64 (t.p.sz + n.toNat) ≤ trapframeVa := by
      simp only [trapframeVa, trampolineVa, maxVa, pgSize] at *
      omega
    have h2 := (pgRoundUp_of_le hle).1
    -- the argument is an `int`, so the sum does not wrap
    have hsum : u64 (t.p.sz + n.toNat) = t.p.sz + n.toNat := by
      unfold u64
      simp only [trapframeVa, trampolineVa, maxVa, pgSize] at hsz
      exact Nat.mod_eq_of_lt (by omega)
    have hmono : pgRoundUp t.p.sz / pgSize ≤ pgRoundUp (u64 (t.p.sz + n.toNat)) / pgSize := by
      rw [h1, h2, hsum]
      simp only [pgSize]
      omega
    exact fun va e hva he hu => Nat.lt_of_lt_of_le (hlow va e hva he hu) hmono
  | shrunk neg heap small unmapped =>
    intro va e hva he hu
    by_cases hP : pgRoundUp (shrunkSize t.p.sz n) / pgSize ≤ va / pgSize ∧
        va / pgSize < pgRoundUp t.p.sz / pgSize
    · rw [unmapped.gone va hva hP] at he
      cases he
    · rw [unmapped.lookup va hva hP] at he
      have hlt := hlow va e hva he hu
      show va / pgSize < pgRoundUp (shrunkSize t.p.sz n) / pgSize
      omega

/-- **`exec`** leaves the old image, or makes one with the stack page at its top. -/
theorem ExecOut.low {fs : Fs} {ip : Nat} {argv : List (List UInt8)} {r : Int} {root' : Frame}
    (htask : TaskOk t root tf o) (hout : ExecOut fs ip argv t root tf o r t')
    (hlow : Low t.mem root t.p.sz) (hroot : t'.p.pagetable = some root') :
    Low t'.mem root' t'.p.sz := by
  have hold : ∀ {m' : Mem} {o₁ : Set Frame}, t.mem.Acts ∅ m' o₁ → Low m' root t.p.sz := by
    intro m' o₁ hacts
    have happart : Apart t.mem root tf o ∅ := ⟨htask.space, fun _ _ => id, id, id⟩
    exact hlow.of_lookup fun va e _ he => by rwa [happart.lookup hacts] at he
  have hsame : t.p.pagetable = some root' → root' = root := fun hp =>
    Option.some.inj (hp.symm.trans htask.pagetable)
  cases hout with
  | noElf => rw [hsame hroot]; exact hlow
  | noTable _ _ acts | bad _ _ _ acts | noRoom _ _ _ _ _ acts => rw [hsame hroot]; exact hold acts
  | done elf scan base image space disjoint acts stack empty fresh mapped =>
    rename_i hdr l m' root₁ own' sp argc b
    obtain rfl : root₁ = root' := Option.some.inj hroot
    intro va e hva he hu
    show va / pgSize < pgRoundUp (stackBase l + pgSize) / pgSize
    by_cases hpage : va / pgSize = stackBase l / pgSize
    · have halign := (execStackbase_spec (segEnd l 0)).1
      rw [show execStackbase (execSize (segEnd l 0)) = stackBase l from rfl] at halign
      rw [hpage, (pgRoundUp_of_le
        (by simp only [trapframeVa, trampolineVa, maxVa, pgSize] at *; omega)).1]
      simp only [pgSize] at *
      omega
    · rw [empty va (space.low_of_user hva he hu) hpage] at he
      cases he

/-! ## Steps that lose nothing -/

/-- No process has a user page above its size. -/
def NoLost (k : Kernel) : Prop :=
  ∀ i root, (k.procs i).pagetable = some root → Low k.mem root (k.procs i).sz

/-- **The condition on a step** under which it loses no frame: page faults, also those of kernel
copies, are at addresses that the handler accepts below the size only, and the arguments of `exec`
fit on the stack page. -/
def LeakFree (k : Kernel) : Event → Prop
  | .act i (.fault va _ _) => Within (k.procs i) va
  | .act i (.copyin src len) => ∀ a ∈ touched src len, Within (k.procs i) a
  | .act i (.copyout dst bytes) => ∀ a ∈ touched dst bytes.length, Within (k.procs i) a
  | .act i (.wait addr) => addr ≠ 0 → ∀ a ∈ touched addr 4, Within (k.procs i) a
  | .act i (.exec path argv) => ∀ ip k₁, Opened k i path ip k₁ →
      ¬ NoRoom k₁.fs ip argv k.mem (k.procs i).trapframe
  | _ => True

theorem NoLost.lostPages (h : NoLost k) (i : Nat) : lostPages k.mem (k.procs i) = ∅ := by
  ext a
  simp only [Xv6.lostPages, Set.mem_ofPred_eq, Set.mem_empty_iff_false, iff_false, not_exists]
  rintro root ⟨hp, ha⟩
  rw [(h i root hp).userPages] at ha
  exact ha

theorem NoLost.quiet (h : NoLost k) (hq : Quiet k k') : NoLost k' := by
  intro i root hp
  rw [hq.mem, (hq.procs i).sz]
  exact h i root ((hq.procs i).pagetable ▸ hp)

/-- The address spaces of slots that a step does not touch are as they were. -/
theorem SysStep.lookup {A : Set Nat} {own' : Nat → Set Frame} {lost : Set Frame} {j : Nat}
    (hs : SysStep A k own k' own' lost) (h : SysInv k own) (hj : j ∉ A)
    (hp : (k.procs j).pagetable = some root) (va : Nat) :
    k'.mem.lookup root va = k.mem.lookup root va := by
  obtain ⟨tf, o, ho, -, htask⟩ := h.live hp
  refine htask.space.lookup_congr (fun a ha => ?_) va
  rw [(hs.other j hj).2.2 a (by rw [ho]; exact Set.mem_insert_of_mem _ ha)]
  rfl

theorem NoLost.step {A : Set Nat} {own' : Nat → Set Frame} {lost : Set Frame} (h : NoLost k)
    (hinv : SysInv k own) (hs : SysStep A k own k' own' lost)
    (hA : ∀ j ∈ A, ∀ root, (k'.procs j).pagetable = some root → Low k'.mem root (k'.procs j).sz) :
    NoLost k' := by
  intro j root hp
  by_cases hj : j ∈ A
  · exact hA j hj root hp
  · obtain ⟨-, hsame, -⟩ := hs.other j hj
    rw [hsame.pagetable] at hp
    rw [hsame.sz]
    exact (h j root hp).of_lookup fun va e _ he => by rwa [hs.lookup hinv hj hp] at he

/-- A step of the running process that keeps its pages below the size. -/
theorem NoLost.setTask {own' : Nat → Set Frame} {lost : Set Frame} (h : NoLost k)
    (hinv : SysInv k own) (hs : SysStep {i} k own (k.setTask i t) own' lost)
    (hlow : ∀ root, t.p.pagetable = some root → Low t.mem root t.p.sz) :
    NoLost (k.setTask i t) := by
  refine h.step hinv hs fun j hj root hp => ?_
  obtain rfl := Set.mem_singleton_iff.mp hj
  simp only [Kernel.setTask, Function.update_self] at hp ⊢
  exact hlow root hp

theorem SysInv.pagetable_none (h : SysInv k own) (ho : own i = ∅) :
    (k.procs i).pagetable = none := by
  cases hp : (k.procs i).pagetable with
  | none => rfl
  | some root =>
    obtain ⟨tf, o, ho', -⟩ := h.live hp
    rw [ho] at ho'
    exact absurd (ho' ▸ Set.mem_insert tf o) (Set.notMem_empty tf)

/-- **A step that meets the condition** loses no frame. -/
theorem NoLost.next {e : Event} (h : NoLost k) (hinv : SysInv k own) (hc : LeakFree k e)
    (hstep : Step k e k') : NoLost k' ∧ ∃ A own', SysStep A k own k' own' ∅ := by
  cases hstep with
  | others change =>
    have hs := hinv.others change
    exact ⟨h.step hinv hs fun j hj => absurd hj (Set.notMem_empty j), _, _, hs⟩
  | act hr does =>
    rename_i i a
    obtain ⟨root, tf, o, hroot, ho, htf, htask⟩ := hinv.runnable hr
    have hlow : Low (k.task i).mem root (k.task i).p.sz := h i root hroot
    -- a step of the running process alone
    have htaskStep : ∀ {S : Set Nat} {t : Task} {o' : Set Frame}, LowStep S (k.task i)
      root tf o t o' →
        NoLost (k.setTask i t) ∧ ∃ A own', SysStep A k own (k.setTask i t) own' ∅ := by
      intro S t o' hl
      have hs := hinv.taskStep ho htf hr hl.step
      refine ⟨h.setTask hinv hs fun root' hp => ?_, _, _, hs⟩
      obtain rfl := Option.some.inj (hp.symm.trans hl.step.task.pagetable)
      exact hl.low
    cases does with
    | fault run =>
      obtain ⟨root', tf', o₁, t, r, o', k₁, ho', hroot', htask', hf, hts, hs, rfl, hk⟩ :=
        usertrapFault_spec hinv hr run
      obtain ⟨o₂, hl⟩ := (⟨TaskStep.refl htask, hlow,
        fun a ha => Set.mem_singleton_iff.mp ha ▸ hc⟩ :
        LowStep _ _ root tf o _ o).fault (Set.mem_singleton _) hf
      obtain ⟨hno, A, own', hs'⟩ := htaskStep hl
      rcases hk with ⟨-, rfl⟩ | ⟨-, hq⟩
      · exact ⟨hno, A, own', hs'⟩
      · exact ⟨hno.quiet hq, A, own', by simpa using hs'.trans (hs'.inv.quiet hq)⟩
    | store run =>
      have hts := TaskStep.store htask run
      have hs := hinv.taskStep ho htf hr hts
      refine ⟨h.setTask hinv hs fun root' hp => ?_, _, _, hs⟩
      obtain rfl := Option.some.inj (hp.symm.trans hts.task.pagetable)
      obtain ⟨e, -, -, -, -, rfl⟩ := userStore_spec htask.pagetable run
      exact hlow.of_lookup fun va e' _ he => by rwa [lookup_setBytes] at he
    | copyin run =>
      obtain ⟨t, hrun, rfl⟩ := onTask_eq_ok.mp run
      rw [Halting.bind_of_ok (pagetableOf_apply hroot)] at hrun
      obtain ⟨o', hl⟩ := LowStep.copyin htask hlow hc hrun
      exact htaskStep hl
    | copyout run =>
      obtain ⟨t, hrun, rfl⟩ := onTask_eq_ok.mp run
      rw [Halting.bind_of_ok (pagetableOf_apply hroot)] at hrun
      obtain ⟨o', hl⟩ := LowStep.copyout htask hlow hc hrun
      exact htaskStep hl
    | sbrk int run =>
      obtain ⟨t, hrun, rfl⟩ := onTask_eq_ok.mp run
      obtain ⟨o', htask', hacts, hgrow⟩ := htask.growproc hrun
      have hstate : t.p.state = .runnable := by
        cases hgrow <;> exact hr
      have hs := hinv.setTask ho htf hacts htask' hstate
      refine ⟨h.setTask hinv hs fun root' hp => ?_, _, _, hs⟩
      obtain rfl := Option.some.inj (hp.symm.trans htask'.pagetable)
      exact hgrow.low int htask.size hlow
    | fork run =>
      cases kfork_spec hinv hr run with
      | failed step same =>
        refine ⟨h.step hinv step fun j hj root hp => ?_, _, _, step⟩
        rw [step.inv.pagetable_none (hinv.idle hj).1] at hp
        cases hp
      | child ne unused parent step procs content copy rest =>
        rename_i j root₁ root' tf' o'
        refine ⟨h.step hinv step fun l hl root₂ hp => ?_, _, _, step⟩
        obtain rfl := Set.mem_singleton_iff.mp hl
        have hself : k'.procs l = newChild k i l tf' root' := by
          rw [procs, Function.update_self]
        obtain ⟨tf₂, o₂, -, -, htask₂⟩ := step.inv.live hp
        rw [hself] at hp ⊢
        obtain rfl : root' = root₂ := Option.some.inj hp
        intro va e hva he hu
        by_cases hlt : va / pgSize < ((k.procs i).sz + (pgSize - 1)) / pgSize
        · show va / pgSize < pgRoundUp (k.procs i).sz / pgSize
          have hround := (pgRoundUp_of_le htask.size).1
          simp only [Kernel.task, pgSize] at hround hlt ⊢
          rw [hround]
          omega
        · rw [rest va (htask₂.space.low_of_user hva he hu) hlt] at he
          cases he
    | exec argvOk run =>
      have hex := exec_spec hinv hr argvOk run
      obtain ⟨own', lost, hs, hlost⟩ := hinv.exec hr hex
      have hempty : lost = ∅ := by
        rcases hlost with hl | hl | ⟨ip, k₁, hop, hno⟩
        · exact hl
        · rw [hl]
          exact h.lostPages i
        · exact absurd hno (hc ip k₁ hop)
      rw [hempty] at hs
      refine ⟨?_, _, _, hs⟩
      cases hex with
      | noFile missing quiet => exact h.quiet quiet.inert.quiet
      | image opened ho' htf' htask' out closed =>
        rename_i k₁ ip t root₁ tf₁ o₁
        refine h.step hinv hs fun j hj root₂ hp => ?_
        obtain rfl := Set.mem_singleton_iff.mp hj
        rw [closed.mem]
        rw [closed.procs] at hp ⊢
        simp only [Kernel.setTask, Function.update_self] at hp ⊢
        obtain rfl := Option.some.inj (hroot.symm.trans htask'.pagetable)
        exact out.low htask' hlow hp
    | exit run =>
      have hq := quiet_kexit i _ _ _ _ run
      exact ⟨h.quiet hq, _, _, hinv.quiet hq⟩
    | wait run =>
      obtain ⟨k₁, own₁, hs, hother, hwhich, hk⟩ := kwait_spec hinv hr run
      have hno₁ : NoLost k₁ := by
        rcases hwhich with rfl | ⟨root', rc, t, src, hroot', haddr, hlen, hout, rfl⟩
        · exact h
        · obtain rfl := Option.some.inj (hroot.symm.trans hroot')
          obtain ⟨o', hl⟩ := LowStep.copyout htask hlow (by rw [hlen]; exact hc haddr) hout
          exact (htaskStep hl).1
      rcases hk with ⟨-, rfl⟩ | ⟨j, hji, -, -, -, hfree⟩
      · exact ⟨hno₁, _, _, hs⟩
      · have hf := hs.inv.freeproc hfree
        rw [hno₁.lostPages j] at hf
        refine ⟨hno₁.step hs.inv hf fun l hl root₂ hp => ?_, _, _, by simpa using hs.trans hf⟩
        obtain rfl := Set.mem_singleton_iff.mp hl
        rw [hf.inv.pagetable_none (Function.update_self ..)] at hp
        cases hp

/-! ## Runs -/

/-- What a process owns, it uses, and its slot is in use. -/
theorem SysInv.used_of_own {a : Frame} (h : SysInv k own) (ha : a ∈ own i) :
    (k.procs i).state ≠ .unused ∧ UsedBy k i a := by
  refine ⟨fun hu => ?_, ?_⟩
  · rw [(h.idle hu).1] at ha
    exact absurd ha (Set.notMem_empty a)
  · obtain ⟨oi, ho⟩ : ∃ oi, oi = own i := ⟨_, rfl⟩
    have hproc := h.proc i
    rw [← ho] at hproc ha
    cases hproc with
    | idle => exact absurd ha (Set.notMem_empty a)
    | frame _ trapframe =>
      rw [Set.mem_singleton_iff.mp ha]
      exact Or.inl trapframe
    | live task =>
      rename_i root tf o
      rcases ha with rfl | ha
      · exact Or.inl task.trapframe
      · refine Or.inr ⟨root, task.pagetable, ?_⟩
        by_cases htab : a ∈ tablesOf k.mem root
        · exact Or.inl htab
        · obtain ⟨va, e, hva, he, -, hea⟩ := (task.space.space.lost_iff a).mp ⟨ha, htab⟩
          exact Or.inr ⟨va, e, hva, he, hea⟩

/-- What holds in every state of a run whose steps lose nothing. -/
def Accounted (k₀ k : Kernel) : Prop :=
  NoLost k ∧ ∃ own, SysInv k own ∧ ∀ a, total k own a ↔ a ∈ k₀.mem.freelist

theorem Accounted.userinit {k₀ k₁ : Kernel} (hb : Boot k₀) (hrun : userinit k₀ = .ok ((), k₁)) :
    Accounted k₀ k₁ := by
  obtain ⟨i, root, own', hs, hp, hempty⟩ := userinit_spec hb.sysInv hrun
  refine ⟨?_, own', hs.inv, fun a => ?_⟩
  · refine NoLost.step (fun j root hp => ?_) hb.sysInv hs fun j hj root' hp' => ?_
    · rw [hb.procs] at hp
      cases hp
    · obtain rfl := Set.mem_singleton_iff.mp hj
      obtain rfl := Option.some.inj (hp.symm.trans hp')
      obtain ⟨tf, o, -, -, htask⟩ := hs.inv.live hp
      intro va e hva he hu
      rw [show k₁.mem.lookup root va = none from hempty va (htask.space.low_of_user
        hva he hu)] at he
      cases he
  · rw [← or_false (total k₁ own' a), ← Set.mem_empty_iff_false a, hs.conserve]
    simp [total]

theorem Accounted.next {k₀ : Kernel} {e : Event} (h : Accounted k₀ k) (hc : LeakFree k e)
    (hstep : Step k e k') : Accounted k₀ k' := by
  obtain ⟨hno, own, hinv, htotal⟩ := h
  obtain ⟨hno', A, own', hs⟩ := hno.next hinv hc hstep
  refine ⟨hno', own', hs.inv, fun a => ?_⟩
  rw [← htotal a, ← hs.conserve a]
  simp

/-- A reaped child gives back all that it used. -/
theorem NoLost.reap {addr : Nat} {r : Int} (h : NoLost k) (hinv : SysInv k own)
    (hr : (k.procs i).state = .runnable)
    (hrun : kwait i addr k = .ok (r, k')) (hne : r ≠ -1) :
    ∃ j, (k.procs j).state = .zombie ∧ r = (k.procs j).pid ∧ (k'.procs j).state = .unused ∧
      ∀ a, UsedBy k j a → a = k.mem.tramp ∨ a ∈ k'.mem.freelist := by
  obtain ⟨k₁, own₁, hs, hother, hwhich, hk⟩ := kwait_spec hinv hr hrun
  rcases hk with ⟨rfl, -⟩ | ⟨j, hji, hz, -, hpid, hfree⟩
  · exact absurd rfl hne
  refine ⟨j, hz, hpid, (freeproc_spec hs.inv hfree).2.2.2.2.2, fun a hused => ?_⟩
  rcases hinv.used hused with hown | htr
  · obtain ⟨hownj, hpj⟩ := hother j hji
    -- nothing of the child is above its size, and the copy of the status does not change that
    have hlost : Xv6.lostPages k₁.mem (k₁.procs j) = ∅ := by
      ext b
      simp only [Xv6.lostPages, Set.mem_ofPred_eq, Set.mem_empty_iff_false, iff_false, not_exists]
      rintro root ⟨hp, hb⟩
      rw [hpj] at hp hb
      have hlow : Low k₁.mem root (k.procs j).sz := (h j root hp).of_lookup fun va e _ he => by
        rwa [hs.lookup hinv (fun hc => hji (Set.mem_singleton_iff.mp hc)) hp] at he
      rw [hlow.userPages] at hb
      exact hb
    have hacts := (freeproc_spec hs.inv hfree).1
    rw [hlost] at hacts
    rcases (hacts.mem_total a).mpr (Or.inl (by rw [hownj]; exact hown)) with hc | hc
    · exact absurd hc (Set.notMem_empty a)
    · exact Or.inr hc
  · exact Or.inl htr

/-- A failed `exec` gives back all that it took. -/
theorem SysInv.exec_failed {path : List UInt8} {argv : List (List UInt8)} (hinv : SysInv k own)
    (hr : (k.procs i).state = .runnable) (hargv : ArgvOk argv)
    (hc : LeakFree k (.act i (.exec path argv))) (hrun : Xv6.exec i path argv k = .ok (-1, k'))
    (a : Frame) : a ∈ k'.mem.freelist ↔ a ∈ k.mem.freelist := by
  cases exec_spec hinv hr hargv hrun with
  | noFile missing quiet => rw [quiet.mem]
  | image opened ho htf htask out closed =>
    rename_i k₁ ip t root tf o
    rw [closed.mem]
    show a ∈ t.mem.freelist ↔ _
    have hnone : ∀ {m' : Mem}, k.mem.Acts ∅ m' ∅ → (a ∈ m'.freelist ↔ a ∈ k.mem.freelist) := by
      intro m' hacts
      simpa using hacts.mem_total a
    generalize hr' : (-1 : Int) = r at out
    cases out with
    | noElf => rfl
    | noTable _ _ acts | bad _ _ _ acts => exact hnone acts
    | noRoom elf scan base room mapped acts =>
      split at acts
      · exact hnone acts
      · next hz =>
        refine absurd ⟨_, _, elf, scan, hz, base, room, ?_⟩ (hc ip k₁ opened)
        rw [show (k.procs i).trapframe = some tf from htask.trapframe]
        exact mapped
    | done => exact absurd hr' (by omega)

/-- **No frame is leaked** along a run from boot whose steps meet the condition. In the
state it reaches, a frame that was free at boot is free or used by a process; a child that
is reaped from there gives back all that it used; and an `exec` that fails there leaves the
free frames as they were. -/
theorem no_leak {k₀ k₁ : Kernel} {es : List Event} (hboot : Boot k₀)
    (hinit : userinit k₀ = .ok ((), k₁)) (hrun : Run.Meets Step LeakFree k₁ es k) :
    (∀ a ∈ k₀.mem.freelist, a ∈ k.mem.freelist ∨
      ∃ i, (k.procs i).state ≠ .unused ∧ UsedBy k i a) ∧
    (∀ i addr r k', (k.procs i).state = .runnable → kwait i addr k = .ok (r, k') → r ≠ -1 →
      ∃ j, (k.procs j).state = .zombie ∧ r = (k.procs j).pid ∧ (k'.procs j).state = .unused ∧
        ∀ a, UsedBy k j a → a = k.mem.tramp ∨ a ∈ k'.mem.freelist) ∧
    (∀ i path argv k', (k.procs i).state = .runnable → ArgvOk argv →
      LeakFree k (.act i (.exec path argv)) → exec i path argv k = .ok (-1, k') →
      ∀ a, a ∈ k'.mem.freelist ↔ a ∈ k.mem.freelist) := by
  obtain ⟨hno, own, hinv, htotal⟩ := Run.invariant_of_meets (I := Accounted k₀)
    (fun _ _ _ h hc hs => h.next hc hs) hrun (Accounted.userinit hboot hinit)
  refine ⟨fun a ha => ?_, fun i addr r k' hr hw hne => hno.reap hinv hr hw hne,
    fun i path argv k' hr hargv hc he a => hinv.exec_failed hr hargv hc he a⟩
  rcases (htotal a).mpr ha with hf | ⟨i, hi⟩
  · exact Or.inl hf
  · exact Or.inr ⟨i, hinv.used_of_own hi⟩

/-- The check that the arguments of an `exec` fit on the stack page; other acts are not checked. -/
def roomCheck (k : Kernel) : Event → Bool
  | .act i (.exec path argv) =>
    match namei i path k with
    | .ok (some ip, k₀) =>
      match ilockInode i ip k₀ with
      | .ok (_, k₁) =>
        match elfHdrOf (k₁.fs.content ip) with
        | some hdr =>
          (stackImage (stackBase (scanHdrs (k₁.fs.content ip) hdr.phnum hdr.phoff 0).1)
            (stackBase (scanHdrs (k₁.fs.content ip) hdr.phnum hdr.phoff 0).1 + pgSize) argv).isSome
        | none => true
      | .error _ => true
    | _ => true
  | .act _ .fork | .act _ (.exit _) => true
  | .act _ (.wait addr) => addr == 0
  | _ => false

theorem leakFree_of_roomCheck (k : Kernel) (e : Event) (h : roomCheck k e = true) :
    LeakFree k e := by
  unfold roomCheck at h
  split at h
  · next i path argv =>
    rintro ip k₁ hop ⟨hdr, l, helf, hscan, -, -, hnone, -⟩
    obtain ⟨k₀, hnamei, hlock⟩ := hop.found
    rw [hnamei] at h
    dsimp only at h
    rw [hlock] at h
    dsimp only at h
    rw [helf] at h
    dsimp only at h
    rw [hscan, hnone] at h
    cases h
  · trivial
  · trivial
  · next addr =>
    intro hne
    exact absurd (by simpa using h) hne
  · cases h

/-- A process that has executed the program. -/
@[irreducible] def afterExec :
    Kernel := stateAfter (machine 60 [smallProgram]) [(0, .exec [47, 97] [[97]])]

set_option maxRecDepth 100000 in
theorem afterExec_reachable : Reachable afterExec := by
  unfold afterExec
  exact reachable_of_stateAfter (machine_boot (by decide) _) (by decide +kernel)

set_option maxRecDepth 100000 in
/-- The parent executes the program and forks a child, which exits and is reaped: the run meets the
condition, and every frame is free or used by the parent. -/
theorem no_leak_reaped : ∃ k₁ es k, Run.Meets Step LeakFree k₁ es k ∧ (k.procs 1).state = .unused ∧
    ∀ a ∈ (machine 60 [smallProgram]).mem.freelist,
      a ∈ k.mem.freelist ∨ ∃ i, (k.procs i).state ≠ .unused ∧ UsedBy k i a := by
  have hsome : (((okState (userinit (machine 60 [smallProgram]))).bind (runActs roomCheck
      [(0, .exec [47, 97] [[97]]), (0, .fork), (1, .exit 0), (0, .wait 0)])).map
      fun k => (k.procs 1).state) = some .unused := by decide +kernel
  obtain ⟨k, hk, hstate⟩ := Option.map_eq_some_iff.mp hsome
  obtain ⟨k₁, hinit, hacts⟩ := Option.bind_eq_some_iff.mp hk
  obtain ⟨_, hinit⟩ := okState_eq_some hinit
  obtain ⟨es, hrun⟩ := meets_of_runActs leakFree_of_roomCheck _ (Run.Meets.nil k₁) hacts
  exact ⟨k₁, es, k, hrun, hstate, (no_leak (machine_boot (by decide) _) hinit hrun).1⟩

/-- Two argument strings that do not fit on a page together. -/
def longArgs : List (List UInt8) := [List.replicate 2100 97, List.replicate 2100 97]

set_option maxRecDepth 100000 in
/-- **A failed `exec` loses its stack page**: the two argument strings do not fit on it. -/
theorem leak_failed_exec : ∃ k k' a, Reachable k ∧ (k.procs 0).state = .runnable ∧
    ArgvOk longArgs ∧ exec 0 [47, 97] longArgs k = .ok (-1, k') ∧
    a ∈ k.mem.freelist ∧ a ∉ k'.mem.freelist := by
  have hrun : (match exec 0 [47, 97] longArgs afterExec with
      | .ok (r, k') => decide ((afterExec.procs 0).state = .runnable) && decide (r = -1) &&
          afterExec.mem.freelist.any fun a => decide (a ∉ k'.mem.freelist)
      | .error _ => false) = true := by decide +kernel
  split at hrun
  · next r k' hexec =>
    simp only [Bool.and_eq_true, decide_eq_true_eq, List.any_eq_true] at hrun
    obtain ⟨⟨hr, rfl⟩, a, ha, hna⟩ := hrun
    exact ⟨afterExec, k', a, afterExec_reachable, hr, fun s hs => by
      simp only [longArgs, List.mem_cons, List.not_mem_nil, or_false, or_self] at hs
      rw [hs, List.length_replicate]
      decide, hexec, ha, hna⟩
  · cases hrun

end Xv6
