import OsnMp2.Kernel.References

/-!
# Memory that `sbrk` gives back

A shrink by `growproc` unmaps the pages between the new and the old size and drops their entries
of the resident list. It leaves the swap array alone, and what is mapped at or above the old
size. So a page that was swapped out stays valid for the fault handler, with its old content,
until it is loaded again.

A page above the new size that is in none of these places is vacant: it is not accessible until the
process grows over it, and then it is loaded with zeros. No later step changes that, as long as the
process keeps its image.

## Main definitions

* `Vacant`: a page that is neither mapped, nor swapped out, nor part of a segment
* `Inaccessible`: no access to an address succeeds, and no fault makes it succeed
* `GivenBack`: the condition on a page when the process shrinks
* `Undisturbed`: the condition on a later step

## Main results

* `shrink_gone`: pages given back under the condition are gone in every later state
* `shrink_keeps_swapped`: a page that was swapped out is there after the shrink
-/

namespace Xv6

variable {k k' k'' : Kernel} {m m' : Mem} {i va : Nat} {root tf : Frame} {own : Nat → Set Frame}
  {o o' : Set Frame} {t t' : Task} {p p' : Proc} {fs : Fs}

/-! ## Vacant pages -/

/-- The page of `va` is nowhere: not mapped, not swapped out, and no segment has an address in
it. -/
structure Vacant (m : Mem) (root : Frame) (p : Proc) (va : Nat) : Prop where
  unmapped : m.lookup root va = none
  unswapped : ∀ e ∈ p.swapped, e.va ≠ pgRoundDown va
  unbacked : ∀ a, a / pgSize = va / pgSize → lazySegFind p a = none

theorem pgRoundDown_congr {a b : Nat} (h : a / pgSize = b / pgSize) :
    pgRoundDown a = pgRoundDown b := by
  unfold pgRoundDown
  rw [h]

theorem Vacant.of_page {a : Nat} (h : Vacant m root p va) (ha : a / pgSize = va / pgSize) :
    Vacant m root p a where
  unmapped := (lookup_of_page ha).trans h.unmapped
  unswapped e he := by
    rw [pgRoundDown_congr ha]
    exact h.unswapped e he
  unbacked b hb := h.unbacked b (hb.trans ha)

/-- The fault handler does not accept a vacant page at or above the size. -/
theorem Vacant.invalid (h : Vacant m root p va) (hsz : p.sz ≤ pgRoundDown va) :
    isValid p va = false := by
  rw [← Bool.not_eq_true, isValid_iff]
  rintro (hseg | hheap | ⟨e, he, hea⟩ | hstack)
  · rw [h.unbacked va rfl] at hseg
    cases hseg
  · have := lt_of_inHeap hheap
    omega
  · exact h.unswapped e he hea
  · have := lt_of_inStack hstack
    omega

/-- A vacant page is loaded with zeros. -/
theorem Vacant.loadBytes (h : Vacant m root p va) : loadBytes fs p va = fun _ => 0 := by
  have hentry : swapEntry p (pgRoundDown va) = none :=
    List.find?_eq_none.mpr fun e he => by simpa using h.unswapped e he
  unfold Xv6.loadBytes backing
  rw [hentry, h.unbacked va rfl]

/-! ## One step of the process -/

/-- **A page fault** keeps a page vacant, or is in the page and loads it with zeros. -/
theorem Fault.vacant_or {a : Nat} {w : Bool} {r : Int} (hf : Fault fs t a w root o r t' o')
    (hva : va < maxVa) (h : Vacant t.mem root t.p va) :
    Vacant t'.mem root t'.p va ∨ a / pgSize = va / pgSize ∧ isValid t.p a = true ∧
      ∃ e, t'.mem.lookup root va = some e ∧ e.perm.u = true ∧
        (t'.mem.phys e.ppn).byte = fun _ => 0 := by
  -- only loading the page maps it; an entry of the swap array is an old one, or was mapped
  have hrest : t'.mem.lookup root va = none → Vacant t'.mem root t'.p va := fun hnone => by
    refine ⟨hnone, fun e he hc => ?_, fun b hb => ?_⟩
    · rcases hf.mem_swapped he with he' | ⟨pte, hpte⟩
      · exact h.unswapped e he' hc
      · rw [hc, lookup_pgRoundDown, h.unmapped] at hpte
        cases hpte
    · rw [lazySegFind_congr hf.sameImage.lazySegs hf.sameImage.lazyNseg]
      exact h.unbacked b hb
  cases he : t'.mem.lookup root va with
  | none => exact Or.inl (hrest he)
  | some e =>
    cases hf with
    | beyond | readOnly | present | invalid =>
      rw [h.unmapped] at he
      cases he
    | stopped _ _ _ _ _ kept =>
      have := (kept.lookup_eq_some hva he).2
      rw [h.unmapped] at this
      cases this
    | loaded low unmapped valid evict full pageIn =>
      rcases pageIn.lookup_eq_some hva he with hpage | ⟨-, he'⟩
      · obtain ⟨f, hf, hb⟩ := pageIn.page
        rw [lookup_of_page hpage.symm, he] at hf
        obtain rfl := Option.some.inj hf
        exact Or.inr ⟨hpage.symm, valid, _, rfl, loadPerm_u _ _,
          hb.trans (h.of_page hpage.symm).loadBytes⟩
      · rw [h.unmapped] at he'
        cases he'

/-- A page fault on another page, or one that is refused, keeps a page vacant. -/
theorem Fault.vacant {a : Nat} {w : Bool} {r : Int} (hf : Fault fs t a w root o r t' o')
    (hva : va < maxVa) (h : Vacant t.mem root t.p va)
    (hne : a / pgSize = va / pgSize → isValid t.p a = false) : Vacant t'.mem root t'.p va := by
  refine (hf.vacant_or hva h).resolve_right ?_
  rintro ⟨hpage, hvalid, -⟩
  rw [hne hpage] at hvalid
  cases hvalid

theorem Vacant.setBytes (h : Vacant m root p va) (f : Frame) (off : Nat) (bs : List UInt8) :
    Vacant (m.setBytes f off bs) root p va :=
  ⟨by rw [lookup_setBytes]; exact h.unmapped, h.unswapped, h.unbacked⟩

/-- A step of the running process that keeps the page of `va` vacant. -/
structure VacantStep (va : Nat) (t : Task) (root tf : Frame) (o : Set Frame) (t' : Task)
    (o' : Set Frame) : Prop where
  step : TaskStep t root tf o t' o'
  vacant : Vacant t'.mem root t'.p va

theorem VacantStep.refl (h : TaskOk t root tf o) (hv : Vacant t.mem root t.p va) :
    VacantStep va t root tf o t o := ⟨TaskStep.refl h, hv⟩

theorem VacantStep.fault {a : Nat} {w x : Bool} {r : Int} {t'' : Task}
    (h : VacantStep va t root tf o t' o') (hva : va < maxVa)
    (hne : a / pgSize = va / pgSize → t.p.sz ≤ pgRoundDown va)
    (hrun : demandPageLoadNew fs a w x t' = .ok (r, t'')) :
    ∃ o'', VacantStep va t root tf o t'' o'' := by
  obtain ⟨o'', htask, hacts, hf⟩ := h.step.task.fault hrun
  refine ⟨o'', h.step.trans ⟨htask, hacts, hf.sameImage⟩, hf.vacant hva h.vacant fun hpage => ?_⟩
  refine (h.vacant.of_page hpage).invalid ?_
  rw [h.step.image.sz, pgRoundDown_congr hpage]
  exact hne hpage

/-- The page of an address that a copy touches. -/
theorem touched_page {a dst n : Nat} (hpage : pgRoundDown a / pgSize = va / pgSize)
    (hmem : pgRoundDown a ∈ touched dst n) : pgRoundDown va ∈ touched dst n := by
  rwa [← pgRoundDown_congr (hpage.symm.trans (page_pgRoundDown a))] at hmem

/-- A page that a copy touches beyond the first one is touched by the rest of the copy. -/
theorem touched_rest {d n : Nat} (hmem : pgRoundDown va ∈ touched d n)
    (hne : va / pgSize ≠ d / pgSize) :
    pgRoundDown va ∈ touched (pgRoundDown d + pgSize) (n - inPage d n) := by
  obtain ⟨b, h1, h2, hb⟩ := hmem
  refine ⟨b, ?_, ?_, hb⟩
  · simp only [pgRoundDown, pgSize] at *
    omega
  · simp only [inPage, pgRoundDown, pgSize] at *
    omega

/-- A vacant page is not the page of an address that is mapped. -/
theorem Vacant.page_ne {a : Nat} {e : Pte} (h : Vacant m root p va)
    (he : m.lookup root (pgRoundDown a) = some e) : va / pgSize ≠ a / pgSize := fun hc => by
  rw [lookup_pgRoundDown, ← lookup_of_page hc, h.unmapped] at he
  cases he

/-- **`copyout`** keeps the page vacant, when it does not touch it or the page is above the size;
and then it fails if it touches the page. -/
theorem VacantStep.copyout {dst : Nat} {src : List UInt8} {r : Int} (h : TaskOk t root tf o)
    (hva : va < maxVa) (hv : Vacant t.mem root t.p va)
    (hne : pgRoundDown va ∈ touched dst src.length → t.p.sz ≤ pgRoundDown va)
    (hrun : Xv6.copyout fs root dst src t = .ok (r, t')) :
    (∃ o', VacantStep va t root tf o t' o') ∧
      (pgRoundDown va ∈ touched dst src.length → r = -1) := by
  unfold Xv6.copyout at hrun
  obtain ⟨⟨r', rest⟩, t₁, hloop, hrun⟩ := Halting.bind_eq_ok.mp hrun
  obtain ⟨rfl, rfl⟩ := Halting.pure_eq_ok.mp hrun
  obtain ⟨⟨d, hsub, hleft, hex⟩, hdone, hres⟩ := copyout_induct
    (I := fun d s t' => touched d s.length ⊆ touched dst src.length ∧
      (pgRoundDown va ∈ touched dst src.length → pgRoundDown va ∈ touched d s.length) ∧
      ∃ o', VacantStep va t root tf o t' o')
    (fun t₁ t₂ d s _ ⟨hsub, hleft, o₁, h₁⟩ hs _ _ hf => by
      have hmem := hsub (touched_self fun hc => hs (List.length_eq_zero_iff.mp hc))
      exact ⟨hsub, hleft, h₁.fault hva (fun hpage => hne (touched_page hpage hmem)) hf⟩)
    (fun t₁ d s e ⟨hsub, hleft, o₁, h₁⟩ _ _ he hu _ => by
      rw [List.length_drop]
      -- the page that is written is mapped, so the vacant one is further on
      exact ⟨(touched_next d s.length).trans hsub,
        fun hmem => touched_rest (hleft hmem) (h₁.vacant.page_ne he), o₁,
        h₁.step.trans (TaskStep.setBytes h₁.step.task he hu _ _), h₁.vacant.setBytes _ _ _⟩)
    _ ⟨subset_refl _, id, o, VacantStep.refl h hv⟩ hloop
  refine ⟨hex, fun hmem => hres.resolve_left fun hr => ?_⟩
  obtain ⟨b, h1, h2, -⟩ := hleft hmem
  rw [hdone le_rfl hr, List.length_nil] at h2
  omega

/-- **`copyin`** keeps the page vacant, when it does not touch it or the page is above the size; and
then it fails if it touches the page. -/
theorem VacantStep.copyin {src len : Nat} {r : Int × List UInt8} (h : TaskOk t root tf o)
    (hva : va < maxVa) (hv : Vacant t.mem root t.p va)
    (hne : pgRoundDown va ∈ touched src len → t.p.sz ≤ pgRoundDown va)
    (hrun : Xv6.copyin fs root src len t = .ok (r, t')) :
    (∃ o', VacantStep va t root tf o t' o') ∧ (pgRoundDown va ∈ touched src len → r.1 = -1) := by
  obtain ⟨a, n, ⟨hsub, hleft, hex⟩, hdone, hres⟩ := copyin_induct
    (I := fun a n _ t' => touched a n ⊆ touched src len ∧
      (pgRoundDown va ∈ touched src len → pgRoundDown va ∈ touched a n) ∧
      ∃ o', VacantStep va t root tf o t' o')
    (fun t₁ t₂ a n _ _ ⟨hsub, hleft, o₁, h₁⟩ hn _ _ hf => ⟨hsub, hleft, h₁.fault hva
      (fun hpage => hne (touched_page hpage (hsub (touched_self hn)))) hf⟩)
    (fun t₁ a n _ e ⟨hsub, hleft, o₁, h₁⟩ _ _ he _ => ⟨(touched_next a n).trans hsub,
      fun hmem => touched_rest (hleft hmem) (h₁.vacant.page_ne he), o₁, h₁⟩)
    _ ⟨subset_refl _, id, o, VacantStep.refl h hv⟩ hrun
  refine ⟨hex, fun hmem => hres.resolve_left fun hr => ?_⟩
  obtain ⟨b, h1, h2, -⟩ := hleft hmem
  rw [hdone le_rfl hr] at h2
  omega

/-- A shrink keeps a vacant page vacant. -/
theorem Grow.vacant {n r : Int} (hg : Grow n t root o r t' o') (hva : va < maxVa)
    (h : Vacant t.mem root t.p va) : Vacant t'.mem root t'.p va := by
  cases hg with
  | refused | same | wrapped => exact h
  | grown pos limit => exact ⟨h.unmapped, h.unswapped, h.unbacked⟩
  | shrunk neg heap small unmapped =>
    refine ⟨?_, h.unswapped, h.unbacked⟩
    by_cases hP : pgRoundUp (shrunkSize t.p.sz n) / pgSize ≤ va / pgSize ∧
        va / pgSize < pgRoundUp t.p.sz / pgSize
    · exact unmapped.gone va hva hP
    · exact (unmapped.lookup va hva hP).trans h.unmapped

/-! ## What a vacant page means to the process -/

/-- No access to `va` succeeds, no fault there is handled, and no kernel copy that touches its page
succeeds. -/
structure Inaccessible (t : Task) (va : Nat) : Prop where
  load : userLoad t va = none
  store : ∀ b, userStore t va b = none
  fault : ∀ fs w x r t', demandPageLoadNew fs va w x t = .ok (r, t') → r = -1
  copyin : ∀ fs root src len r t', t.p.pagetable = some root → pgRoundDown va ∈ touched src len →
    Xv6.copyin fs root src len t = .ok (r, t') → r.1 = -1
  copyout : ∀ fs root dst src r t', t.p.pagetable = some root →
    pgRoundDown va ∈ touched dst src.length → Xv6.copyout fs root dst src t = .ok (r, t') → r = -1

/-- The first read of the page of `va` returns zeros: by the process, once a fault there is handled,
and by the kernel. -/
structure ReadsZero (t : Task) (va : Nat) : Prop where
  load : ∀ fs w x t' b, demandPageLoadNew fs va w x t = .ok (0, t') →
    userLoad t' va = some b → b = 0
  copyin : ∀ fs root src len r bytes t', t.p.pagetable = some root →
    Xv6.copyin fs root src len t = .ok ((r, bytes), t') →
    ∀ n b, bytes[n]? = some b → (src + n) / pgSize = va / pgSize → b = 0

theorem maxVa_of_trapframeVa (h : va < trapframeVa) : va < maxVa := by
  simp only [trapframeVa, trampolineVa, maxVa, pgSize] at *
  omega

/-- **A vacant page above the size is not accessible.** -/
theorem Vacant.inaccessible (h : TaskOk t root tf o) (hva : va < maxVa)
    (hv : Vacant t.mem root t.p va) (hsz : t.p.sz ≤ pgRoundDown va) : Inaccessible t va where
  load := by
    by_contra hc
    obtain ⟨b, hb⟩ := Option.ne_none_iff_exists'.mp hc
    obtain ⟨e, -, he, -⟩ := userLoad_spec h.pagetable hb
    rw [hv.unmapped] at he
    cases he
  store b := by
    by_contra hc
    obtain ⟨t', ht'⟩ := Option.ne_none_iff_exists'.mp hc
    obtain ⟨e, -, he, -⟩ := userStore_spec h.pagetable ht'
    rw [hv.unmapped] at he
    cases he
  fault fs w x r t' hrun := by
    obtain ⟨o', -, -, hf⟩ := h.fault hrun
    cases hf with
    | beyond | readOnly | invalid | stopped => rfl
    | present _ mapped =>
      rw [hv.unmapped] at mapped
      cases mapped
    | loaded _ _ valid =>
      rw [hv.invalid hsz] at valid
      cases valid
  copyin fs root' src len r t' hp hmem hrun := by
    obtain rfl := Option.some.inj (hp.symm.trans h.pagetable)
    exact (VacantStep.copyin h hva hv (fun _ => hsz) hrun).2 hmem
  copyout fs root' dst src r t' hp hmem hrun := by
    obtain rfl := Option.some.inj (hp.symm.trans h.pagetable)
    exact (VacantStep.copyout h hva hv (fun _ => hsz) hrun).2 hmem

/-- **The first read of a vacant page returns zeros.** -/
theorem Vacant.readsZero (h : TaskOk t root tf o) (hva : va < maxVa)
    (hv : Vacant t.mem root t.p va) : ReadsZero t va where
  load fs w x t' b hrun hload := by
    rw [userLoad_after_fault h hrun hload, heldByte_of_none h.pagetable hv.unmapped, hv.loadBytes]
  copyin fs root' src len r bytes t' hp hrun := by
    obtain rfl := Option.some.inj (hp.symm.trans h.pagetable)
    -- until the copy comes to the page it is vacant; there it is loaded with zeros
    obtain ⟨-, -, hV, -⟩ := copyin_reads
      (J := fun a t' => (∃ o', TaskStep t root' tf o t' o') ∧ (a / pgSize ≤ va / pgSize →
        Vacant t'.mem root' t'.p va ∨ a / pgSize = va / pgSize ∧
        ∃ e, t'.mem.lookup root' va = some e ∧
          e.perm.u = true ∧ (t'.mem.phys e.ppn).byte = fun _ => 0))
      (V := fun b x => b / pgSize = va / pgSize → x = 0)
      (fun t₁ t₂ a r ⟨⟨o₁, h₁⟩, hzero⟩ hlow hno hf => by
        obtain ⟨o₂, htask₂, hacts, hfault⟩ := h₁.task.fault hf
        refine ⟨⟨o₂, h₁.trans ⟨htask₂, hacts, hfault.sameImage⟩⟩, fun hle => ?_⟩
        rcases hzero hle with hv₁ | ⟨hpage, e, he, hu, -⟩
        · exact (hfault.vacant_or hva hv₁).imp id fun ⟨hpage, _, he⟩ =>
            ⟨(page_pgRoundDown a).symm.trans hpage, he⟩
        · rw [lookup_pgRoundDown, lookup_of_page hpage] at hno
          rw [hno e he] at hu
          cases hu)
      (fun t₁ a e ⟨⟨o₁, h₁⟩, hzero⟩ hlow he hu => by
        refine ⟨⟨⟨o₁, h₁⟩, fun hle => ?_⟩, fun b hab hb hpage => ?_⟩
        · rcases hzero (by simp only [pgRoundDown, pgSize] at *; omega) with hv₁ | ⟨hpage, -⟩
          · exact Or.inl hv₁
          · simp only [pgRoundDown, pgSize] at *
            omega
        · have hpa : a / pgSize = va / pgSize := hb.symm.trans hpage
          rw [lookup_pgRoundDown, lookup_of_page hpa] at he
          rcases hzero hpa.le with hv₁ | ⟨-, e', he', -, hzero'⟩
          · rw [hv₁.unmapped] at he
            cases he
          · obtain rfl := Option.some.inj (he.symm.trans he')
            rw [hzero'])
      ⟨⟨o, TaskStep.refl h⟩, fun _ => Or.inl hv⟩ hrun
    exact hV

/-! ## Steps of the system -/

/-- The page of `va` is vacant, as long as process `i` has the page table `root`. -/
def VacantAt (i : Nat) (root : Frame) (va : Nat) (k : Kernel) : Prop :=
  (k.procs i).pagetable = some root → Vacant k.mem root (k.procs i) va

/-- The recorded segments are the same. -/
structure SameSegs (p p' : Proc) : Prop where
  lazySegs : p'.lazySegs = p.lazySegs
  lazyNseg : p'.lazyNseg = p.lazyNseg

theorem SameSegs.refl (p : Proc) : SameSegs p p := ⟨rfl, rfl⟩

theorem kexit_sameSegs {j : Nat} {status : Int} (hrun : kexit j status k = .ok ((), k')) (i : Nat) :
    SameSegs (k.procs i) (k'.procs i) := by
  obtain ⟨files, -, hprocs, -⟩ := kexit_effect hrun
  obtain ⟨q, hq⟩ := hprocs i
  rw [hq]
  split
  · next h => rw [h]; exact ⟨rfl, rfl⟩
  · exact ⟨rfl, rfl⟩

/-- A step that leaves the memory and the segments of process `i` alone. -/
theorem VacantAt.other {A : Set Nat} {own' : Nat → Set Frame} {lost : Set Frame}
    (h : VacantAt i root va k) (hinv : SysInv k own) (hs : SysStep A k own k' own' lost)
    (hi : i ∉ A) (hsegs : SameSegs (k.procs i) (k'.procs i)) : VacantAt i root va k' := by
  intro hp'
  obtain ⟨-, hsame, -⟩ := hs.other i hi
  have hp : (k.procs i).pagetable = some root := hsame.pagetable ▸ hp'
  have hv := h hp
  refine ⟨(hs.lookup hinv hi hp va).trans hv.unmapped, ?_, fun a ha => ?_⟩
  · rw [hsame.swapped]
    exact hv.unswapped
  · rw [lazySegFind_congr hsegs.lazySegs hsegs.lazyNseg]
    exact hv.unbacked a ha

/-- A step of the process in slot `j` alone. -/
theorem VacantAt.setTask {j : Nat} {own' : Nat → Set Frame} {lost : Set Frame}
    (h : VacantAt i root va k) (hinv : SysInv k own)
    (hs : SysStep {j} k own (k.setTask j t) own' lost)
    (hself : j = i → t.p.pagetable = some root → Vacant t.mem root t.p va) :
    VacantAt i root va (k.setTask j t) := by
  by_cases hj : j = i
  · subst hj
    intro hp
    simp only [Kernel.setTask, Function.update_self] at hp ⊢
    exact hself rfl hp
  · refine h.other hinv hs (fun hc => hj (Set.mem_singleton_iff.mp hc).symm) ?_
    simp only [Kernel.setTask, Function.update_of_ne (Ne.symm hj)]
    exact SameSegs.refl _

/-- The executable at `path` has no segment with an address in the page of `va`, as far as `exec`
records them. -/
def NotCovered (k : Kernel) (i : Nat) (path : List UInt8) (va : Nat) : Prop :=
  ∀ ip k₁ hdr, Opened k i path ip k₁ → elfHdrOf (k₁.fs.content ip) = some hdr →
    ∀ ph ∈ (scanHdrs (k₁.fs.content ip) hdr.phnum hdr.phoff 0).1, ∀ a, a / pgSize = va / pgSize →
      ¬ (ph.vaddr ≤ a ∧ a < u64 (ph.vaddr + ph.memsz))

/-- **What process `i` may do with the page of `va`**: touch it only while it is not below the size,
and call `exec` only when this records no segment over it. -/
def Spares (k : Kernel) (i va : Nat) : Act → Prop
  | .fault a _ _ => a / pgSize = va / pgSize → (k.procs i).sz ≤ pgRoundDown va
  | .copyin src len => pgRoundDown va ∈ touched src len → (k.procs i).sz ≤ pgRoundDown va
  | .copyout dst bytes => pgRoundDown va ∈ touched dst bytes.length →
      (k.procs i).sz ≤ pgRoundDown va
  | .wait addr => addr ≠ 0 → pgRoundDown va ∈ touched addr 4 → (k.procs i).sz ≤ pgRoundDown va
  | .exec path _ => FailsEarly k i path ∨ NotCovered k i path va
  | _ => True

/-- **The condition on a step** after a shrink: process `i` still has its page table `root`, and it
does not touch the page of `va` when it has grown over it. -/
def Undisturbed (i : Nat) (root : Frame) (va : Nat) (k : Kernel) : Event → Prop
  | .act j a => (k.procs i).pagetable = some root ∧ (j = i → Spares k i va a)
  | .others => True

/-- The segments that `exec` records over the old ones. -/
theorem lazySegFind_execProc {ip a : Nat} {l : List ProgHdr}
    (h : ∀ ph ∈ l, ¬ (ph.vaddr ≤ a ∧ a < u64 (ph.vaddr + ph.memsz))) :
    lazySegFind (execProc p ip l) a = none := by
  refine List.find?_eq_none.mpr fun j _ hc => ?_
  have hn : (execProc p ip l).lazyNseg = l.length := Nat.zero_add _
  simp only [Bool.and_eq_true, decide_eq_true_eq, hn] at hc
  obtain ⟨⟨hj, h1⟩, h2⟩ := hc
  have hph := List.getElem?_eq_getElem hj
  have hseg : (execProc p ip l).lazySegs j = (l[j.val]).seg ip := by
    simp only [execProc, recordProc, setSegs, Nat.zero_le, if_true, Nat.sub_zero, hph]
  rw [hseg] at h1 h2
  exact h _ (List.getElem_mem hj) ⟨h1, h2⟩

/-- **`exec`** keeps the page vacant, or gives the process another page table. -/
theorem ExecStep.vacant {path : List UInt8} {argv : List (List UInt8)} {r : Int}
    (hex : ExecStep k own i path argv r k') (hroot : (k.procs i).pagetable = some root)
    (hv : Vacant k.mem root (k.procs i) va) (hc : FailsEarly k i path ∨ NotCovered k i path va) :
    VacantAt i root va k' := by
  cases hex with
  | noFile missing quiet =>
    intro _
    rw [quiet.mem, quiet.procs]
    exact hv
  | image opened ho htf htask out closed =>
    rename_i k₁ ip t root₁ tf o
    obtain rfl := Option.some.inj (hroot.symm.trans htask.pagetable)
    have hmem : k'.mem = t.mem := closed.mem
    have hp : k'.procs i = t.p := by
      rw [closed.procs]
      exact Function.update_self ..
    intro hp'
    rw [hmem, hp]
    rw [hp] at hp'
    have happart : Apart k.mem root tf o ∅ := ⟨htask.space, fun _ _ => id, id, id⟩
    -- a failure after the segments were recorded
    have hlate : ∀ {hdr : ElfHdr} {l : List ProgHdr} {through : Bool} {m' : Mem} {o₁ : Set Frame},
        elfHdrOf (k₁.fs.content ip) = some hdr →
        scanHdrs (k₁.fs.content ip) hdr.phnum hdr.phoff 0 = (l, through) →
        (∃ new m₁, procPagetable tf k.mem = .ok (some new, m₁)) → k.mem.Acts ∅ m' o₁ →
        Vacant m' root (execProc (k.procs i) ip l) va := by
      rintro hdr l through m' o₁ helf hscan ⟨new, m₁, htable⟩ hacts
      refine ⟨(happart.lookup hacts va).trans hv.unmapped, hv.unswapped, fun a ha => ?_⟩
      refine lazySegFind_execProc fun ph hph => ?_
      rcases hc with hearly | hno
      · exfalso
        rcases hearly with ⟨k₂, hnone⟩ | ⟨ip', k₂, hop, hcase⟩
        · obtain ⟨k₀, hsome, -⟩ := opened.found
          rw [hsome] at hnone
          cases hnone
        · obtain ⟨rfl, rfl⟩ := opened.unique hop
          rcases hcase with hnone | ⟨m₂, hnone⟩
          · rw [helf] at hnone
            cases hnone
          · rw [show (k.procs i).trapframe.getD 0 = tf by
              rw [show (k.procs i).trapframe = some tf from htask.trapframe]; rfl, htable] at hnone
            cases hnone
      · exact hno ip k₁ hdr opened helf ph (by rw [hscan]; exact hph) a ha
    cases out with
    | noElf => exact hv
    | noTable _ _ acts =>
      exact ⟨(happart.lookup acts va).trans hv.unmapped, hv.unswapped, hv.unbacked⟩
    | bad elf scan table acts => exact hlate elf scan table acts
    | noRoom elf scan base room mapped acts =>
      obtain ⟨new, m₁, htable, -⟩ := mapped
      exact hlate elf scan ⟨new, m₁, htable⟩ acts
    | done elf scan base image space disjoint acts stack empty fresh mapped =>
      exact absurd (Option.some.inj hp') fresh

/-- What leaves the memory and the process alone keeps the page vacant. -/
theorem VacantAt.same (h : VacantAt i root va k) (hmem : k'.mem = k.mem)
    (hspace : SameSpace (k.procs i) (k'.procs i)) (hsegs : SameSegs (k.procs i) (k'.procs i)) :
    VacantAt i root va k' := by
  intro hp
  have hv := h (hspace.pagetable.symm.trans hp)
  refine ⟨?_, ?_, fun a ha => ?_⟩
  · rw [hmem]
    exact hv.unmapped
  · rw [hspace.swapped]
    exact hv.unswapped
  · rw [lazySegFind_congr hsegs.lazySegs hsegs.lazyNseg]
    exact hv.unbacked a ha

/-- A process that its page fault kills exits. -/
theorem VacantAt.killed {j : Nat} (h : VacantAt i root va k)
    (hrun : kexit j (-1) { k with
      procs := Function.update k.procs j { k.procs j with killed := true } } = .ok ((), k')) :
    VacantAt i root va k' := by
  have hflag : VacantAt i root va { k with
      procs := Function.update k.procs j { k.procs j with killed := true } } := by
    by_cases hj : i = j
    · subst hj
      refine h.same rfl ?_ ?_
      all_goals
        simp only [Function.update_self]
      · exact ⟨rfl, rfl, rfl, rfl, rfl⟩
      · exact ⟨rfl, rfl⟩
    · refine h.same rfl ?_ ?_
      all_goals
        simp only [Function.update_of_ne hj]
      · exact SameSpace.refl _
      · exact SameSegs.refl _
  have hquiet := quiet_kexit j (-1) _ _ _ hrun
  exact hflag.same hquiet.mem (hquiet.procs i) (kexit_sameSegs hrun i)

/-- **`fork`** leaves the process alone, also when it is the parent. -/
theorem VacantAt.fork {j : Nat} {r : Int} (h : VacantAt i root va k) (hinv : SysInv k own)
    (hr : (k.procs j).state = .runnable) (hused : (k.procs i).state ≠ .unused)
    (hrun : kfork j k = .ok (r, k')) : VacantAt i root va k' := by
  have hsegs : SameSegs (k.procs i) (k'.procs i) := by
    rcases kfork_effect (by rw [hr]; decide) hrun with ⟨hab, -⟩ | ⟨l, _, _, -, hun, hprocs, -⟩
    · rcases hab i with heq | hidle
      · rw [heq]
        exact SameSegs.refl _
      · exact absurd hidle.before hused
    · have hne : i ≠ l := fun hc => hused (hc ▸ hun)
      rw [hprocs, Function.update_of_ne hne]
      exact SameSegs.refl _
  cases kfork_spec hinv hr hrun with
  | failed step same => exact h.other hinv step hused hsegs
  | child ne unused parent step =>
    exact h.other hinv step (fun hc => hused (Set.mem_singleton_iff.mp hc ▸ unused)) hsegs

/-- The `exec` of another process. -/
theorem VacantAt.execOther {j : Nat} {path : List UInt8} {argv : List (List UInt8)} {r : Int}
    (h : VacantAt i root va k) (hinv : SysInv k own) (hr : (k.procs j).state = .runnable)
    (hj : j ≠ i) (hex : ExecStep k own j path argv r k') : VacantAt i root va k' := by
  obtain ⟨own', lost, hs, -⟩ := hinv.exec hr hex
  refine h.other hinv hs (fun hc => hj (Set.mem_singleton_iff.mp hc).symm) ?_
  cases hex with
  | noFile missing quiet => rw [quiet.procs]; exact SameSegs.refl _
  | image opened _ _ _ out closed =>
    rw [closed.procs]
    simp only [Kernel.setTask, Function.update_of_ne (Ne.symm hj), opened.procs]
    exact SameSegs.refl _

/-- `kwait` reaps a process: its page table is gone. -/
theorem VacantAt.reaped {l : Nat} (h : VacantAt i root va k) (hinv : SysInv k own)
    (hrun : freeproc l k = .ok ((), k')) : VacantAt i root va k' := by
  by_cases hl : l = i
  · subst hl
    intro hp
    rw [(freeproc_spec hinv hrun).2.2.1] at hp
    cases hp
  · refine h.other hinv (hinv.freeproc hrun) (fun hc => hl (Set.mem_singleton_iff.mp hc).symm) ?_
    rw [(freeproc_effect hrun).procs, Function.update_of_ne (Ne.symm hl)]
    exact SameSegs.refl _

/-- **A step that meets the condition** keeps the page vacant. -/
theorem VacantAt.next {e : Event} (h : VacantAt i root va k) (hinv : SysInv k own)
    (hva : va < maxVa)
    (hc : Undisturbed i root va k e) (hstep : Step k e k') : VacantAt i root va k' := by
  cases hstep with
  | others change =>
    refine h.other hinv (hinv.others change) (Set.notMem_empty i) ?_
    obtain ⟨_, _, hi⟩ := change.procs i
    rw [hi]
    exact ⟨rfl, rfl⟩
  | act hr does =>
    rename_i j a
    obtain ⟨hroot, hspare⟩ := hc
    have hv := h hroot
    obtain ⟨rootj, tf, o, hrootj, ho, htf, htask⟩ := hinv.runnable hr
    -- process `i` is in use, whoever acts
    have hused : (k.procs i).state ≠ .unused := fun hu => by
      rw [((hinv.state i).unused hu).1] at hroot
      cases hroot
    -- a step of the acting process alone
    have htaskStep : ∀ {t : Task} {o' : Set Frame}, TaskStep (k.task j) rootj tf o t o' →
        (j = i → Vacant t.mem root t.p va) → VacantAt i root va (k.setTask j t) := by
      intro t o' hts hself
      exact h.setTask hinv (hinv.taskStep ho htf hr hts) fun hj _ => hself hj
    have hvj : j = i → rootj = root ∧ Vacant (k.task j).mem rootj (k.task j).p va := by
      rintro rfl
      obtain rfl := Option.some.inj (hroot.symm.trans hrootj)
      exact ⟨rfl, hv⟩
    have hvacant : ∀ {t : Task}, j = i → (∃ o', VacantStep va (k.task j) rootj tf o t o') →
        Vacant t.mem root t.p va := by
      rintro t hj ⟨o', hs⟩
      rw [← (hvj hj).1]
      exact hs.vacant
    cases does with
    | fault run =>
      obtain ⟨r, k₁, hon, run⟩ := Halting.bind_eq_ok.mp run
      obtain ⟨t, hf, rfl⟩ := onTask_eq_ok.mp hon
      obtain ⟨o', hts⟩ := TaskStep.fault htask hf
      have h₁ := htaskStep hts fun hj => hvacant hj ((VacantStep.refl htask (hvj hj).2).fault hva
        (by subst hj; exact hspare rfl) hf)
      split at run
      · obtain ⟨-, rfl⟩ := Halting.pure_eq_ok.mp run
        exact h₁
      · obtain ⟨_, k₂, hup, run⟩ := Halting.bind_eq_ok.mp run
        rw [updProc_apply] at hup
        cases hup
        exact h₁.killed run
    | store run =>
      have hts := TaskStep.store htask run
      obtain ⟨e, -, -, -, -, rfl⟩ := userStore_spec htask.pagetable run
      exact htaskStep hts fun hj => hvacant hj ⟨o, hts, (hvj hj).2.setBytes _ _ _⟩
    | copyin run =>
      obtain ⟨t, hrun, rfl⟩ := onTask_eq_ok.mp run
      rw [Halting.bind_of_ok (pagetableOf_apply hrootj)] at hrun
      obtain ⟨o', hts⟩ := TaskStep.copyin htask hrun
      exact htaskStep hts fun hj => hvacant hj (VacantStep.copyin htask hva (hvj hj).2
        (by subst hj; exact hspare rfl) hrun).1
    | copyout run =>
      obtain ⟨t, hrun, rfl⟩ := onTask_eq_ok.mp run
      rw [Halting.bind_of_ok (pagetableOf_apply hrootj)] at hrun
      obtain ⟨o', hts⟩ := TaskStep.copyout htask hrun
      exact htaskStep hts fun hj => hvacant hj (VacantStep.copyout htask hva (hvj hj).2
        (by subst hj; exact hspare rfl) hrun).1
    | sbrk int run =>
      obtain ⟨t, hrun, rfl⟩ := onTask_eq_ok.mp run
      obtain ⟨o', htask', hacts, hgrow⟩ := htask.growproc hrun
      have hstate : t.p.state = .runnable := by
        cases hgrow <;> exact hr
      refine h.setTask hinv (hinv.setTask ho htf hacts htask' hstate) fun hj _ => ?_
      rw [← (hvj hj).1]
      exact hgrow.vacant hva (hvj hj).2
    | fork run => exact h.fork hinv hr hused run
    | exec argvOk run =>
      have hex := exec_spec hinv hr argvOk run
      by_cases hj : j = i
      · subst hj
        exact hex.vacant hroot hv (hspare rfl)
      · exact h.execOther hinv hr hj hex
    | exit run =>
      exact h.other hinv (hinv.quiet (quiet_kexit j _ _ _ _ run)) (Set.notMem_empty i)
        (kexit_sameSegs run i)
    | wait run =>
      obtain ⟨k₁, own₁, hs, hother, hwhich, hk⟩ := kwait_spec hinv hr run
      have h₁ : VacantAt i root va k₁ := by
        rcases hwhich with rfl | ⟨root', rc, t, src, hroot', haddr, hlen, hout, rfl⟩
        · exact h
        · obtain rfl := Option.some.inj (hrootj.symm.trans hroot')
          obtain ⟨o', hts⟩ := TaskStep.copyout htask hout
          exact htaskStep hts fun hj => hvacant hj (VacantStep.copyout htask hva (hvj hj).2
            (by rw [hlen]; subst hj; exact hspare rfl haddr) hout).1
      rcases hk with ⟨-, rfl⟩ | ⟨l, hlj, -, -, -, hfree⟩
      · exact h₁
      · exact h₁.reaped hs.inv hfree

/-! ## Runs after a shrink -/

/-- **The condition on a page** when the process shrinks: it is not swapped out, no segment has an
address in it, and it is not mapped when it is above the old size already. -/
structure GivenBack (t : Task) (va : Nat) : Prop where
  unswapped : ∀ e ∈ t.p.swapped, e.va ≠ pgRoundDown va
  unbacked : ∀ a, a / pgSize = va / pgSize → lazySegFind t.p a = none
  above : pgRoundUp t.p.sz ≤ va → ∀ root, t.p.pagetable = some root → t.mem.lookup root va = none

/-- A successful shrink makes a page vacant that is given back. -/
theorem Grow.vacant_of_givenBack {n : Int} (h : TaskOk t root tf o) (hn : n < 0)
    (hg : Grow n t root o 0 t' o') (hva : va < maxVa) (hpage : pgRoundUp t'.p.sz ≤ va)
    (hback : GivenBack t va) : Vacant t'.mem root t'.p va := by
  generalize hr : (0 : Int) = r at hg
  cases hg with
  | refused => cases hr
  | grown pos => omega
  | same zero => omega
  | wrapped neg large => exact ⟨hback.above hpage root h.pagetable, hback.unswapped, hback.unbacked⟩
  | shrunk neg heap small unmapped =>
    refine ⟨?_, hback.unswapped, hback.unbacked⟩
    by_cases hP : pgRoundUp (shrunkSize t.p.sz n) / pgSize ≤ va / pgSize ∧
        va / pgSize < pgRoundUp t.p.sz / pgSize
    · exact unmapped.gone va hva hP
    · rw [unmapped.lookup va hva hP]
      refine hback.above ?_ root h.pagetable
      have hlow : pgRoundUp (shrunkSize t.p.sz n) ≤ va := hpage
      have hround : pgRoundUp t.p.sz % pgSize = 0 := Nat.mul_mod_left _ _
      simp only [pgSize] at *
      omega

/-- **Memory given back by `sbrk` is gone.** After a shrink, a page above the new size that met the
condition is inaccessible in every state of every later run in which the process keeps its image,
until it grows over the page; and the first read of the page is of zeros. -/
theorem shrink_gone {n : Int} {es : List Event} (h : Reachable k)
    (hr : (k.procs i).state = .runnable)
    (hn : n < 0) (hshrink : onTask i (fun _ => growproc n) k = .ok (0, k'))
    (hlow : va < trapframeVa)
    (hpage : pgRoundUp (k'.procs i).sz ≤ va) (hback : GivenBack (k.task i) va)
    (hrun : Run.Meets Step (Undisturbed i root va) k' es k'')
    (hroot : (k''.procs i).pagetable = some root) :
    ((k''.procs i).sz ≤ pgRoundDown va → Inaccessible (k''.task i) va) ∧
      ReadsZero (k''.task i) va := by
  have hva := maxVa_of_trapframeVa hlow
  obtain ⟨own, hinv⟩ := h.sysInv
  obtain ⟨root₀, tf, o, hroot₀, ho, htf, htask⟩ := hinv.runnable hr
  obtain ⟨t, hgrow, rfl⟩ := onTask_eq_ok.mp hshrink
  obtain ⟨o', htask', hacts, hg⟩ := htask.growproc hgrow
  have hstate : t.p.state = .runnable := by
    cases hg <;> exact hr
  have hs := hinv.setTask ho htf hacts htask' hstate
  have hfirst : VacantAt i root va (k.setTask i t) := by
    intro hp
    simp only [Kernel.setTask, Function.update_self] at hp hpage ⊢
    obtain rfl := Option.some.inj (hp.symm.trans htask'.pagetable)
    exact hg.vacant_of_givenBack htask hn hva hpage hback
  obtain ⟨⟨own', hinv'⟩, hvac⟩ := Run.invariant_of_meets
    (I := fun k => (∃ own, SysInv k own) ∧ VacantAt i root va k)
    (by
      rintro _ _ _ ⟨⟨own₁, h₁⟩, hv⟩ hc hstep
      obtain ⟨_, own₂, _, hs₂⟩ := h₁.step hstep
      exact ⟨⟨own₂, hs₂.inv⟩, hv.next h₁ hva hc hstep⟩) hrun ⟨⟨_, hs.inv⟩, hfirst⟩
  obtain ⟨tf'', o'', -, -, htask''⟩ := hinv'.live hroot
  exact ⟨fun hsz => (hvac hroot).inaccessible htask'' hva hsz, (hvac hroot).readsZero htask'' hva⟩

/-- A process that has executed the program and grown by two pages. -/
@[irreducible] def afterGrow : Kernel := stateAfter (machine 60 [smallProgram])
  [(0, .exec [47, 97] [[97]]), (0, .sbrk 0x2000)]

set_option maxRecDepth 100000 in
theorem afterGrow_reachable : Reachable afterGrow := by
  unfold afterGrow
  exact reachable_of_stateAfter (machine_boot (by decide) _) (by decide +kernel)

/-- No segment has an address in a page that all of them end below. -/
theorem lazySegFind_of_le {a : Nat} (h : ∀ j : Fin 16, j.val < p.lazyNseg →
    u64 ((p.lazySegs j).vaddr + (p.lazySegs j).memsz) ≤ pgRoundDown va)
    (ha : a / pgSize = va / pgSize) : lazySegFind p a = none := by
  refine List.find?_eq_none.mpr fun j _ hc => ?_
  simp only [Bool.and_eq_true, decide_eq_true_eq] at hc
  have hle := h j hc.1.1
  have hlt := hc.2
  rw [← pgRoundDown_congr ha] at hle
  have := pgRoundDown_le a
  omega

/-- A process that has executed the program, grown by two pages and written both. -/
@[irreducible] def afterWrite : Kernel := stateAfter (machine 60 [smallProgram])
  [(0, .exec [47, 97] [[97]]), (0, .sbrk 0x2000), (0, .fault 0x5000 true false),
   (0, .store 0x5000 9), (0, .fault 0x6000 true false), (0, .store 0x6000 5)]

set_option maxRecDepth 100000 in
theorem afterWrite_reachable : Reachable afterWrite := by
  unfold afterWrite
  exact reachable_of_stateAfter (machine_boot (by decide) _) (by decide +kernel)

/-- Acts that leave the page of `va` alone. -/
def sparesCheck (va : Nat) : Act → Bool
  | .fault a _ _ => decide (a / pgSize ≠ va / pgSize)
  | .wait addr => decide (addr = 0)
  | .sbrk _ => true
  | .fork => true
  | .exit _ => true
  | _ => false

def undisturbedCheck (i : Nat) (root : Frame) (va : Nat) (k : Kernel) : Event → Bool
  | .act _ a => decide ((k.procs i).pagetable = some root) && sparesCheck va a
  | .others => true

theorem spares_of_check {a : Act} (h : sparesCheck va a = true) : Spares k i va a := by
  cases a with
  | fault a _ _ => exact fun heq => absurd heq (of_decide_eq_true h)
  | wait addr => exact fun hne => absurd (of_decide_eq_true h) hne
  | sbrk _ => trivial
  | fork => trivial
  | exit _ => trivial
  | store _ _ => trivial
  | copyin _ _ => cases h
  | copyout _ _ => cases h
  | exec _ _ => cases h

theorem undisturbed_of_check {root : Frame} (k : Kernel) (e : Event)
    (h : undisturbedCheck i root va k e = true) : Undisturbed i root va k e := by
  cases e with
  | act j a =>
    rw [undisturbedCheck, Bool.and_eq_true, decide_eq_true_eq] at h
    exact ⟨h.1, fun _ => spares_of_check h.2⟩
  | others => trivial

/-- The process grows by one page, loads it and forks; its child exits and is reaped. -/
def regrowFirst : List (Nat × Act) :=
  [(0, .sbrk 0x1000), (0, .fault 0x5000 true false), (0, .fork), (1, .exit 0), (0, .wait 0)]

set_option maxRecDepth 100000 in
/-- The process gives back two pages that it has written, and grows again: the second page is
inaccessible until it grows over it, and then a page of zeros. -/
theorem shrink_gone_regrown : ∃ k' root es k₁ es' k₂, userLoad (afterWrite.task 0) 0x6000 = some 5 ∧
    onTask 0 (fun _ => growproc (-0x2000)) afterWrite = .ok (0, k') ∧
    Run.Meets Step (Undisturbed 0 root 0x6000) k' es k₁ ∧ Inaccessible (k₁.task 0) 0x6000 ∧
    Run.Meets Step (Undisturbed 0 root 0x6000) k' es' k₂ ∧ (k₂.procs 0).sz = 0x7000 ∧
    ReadsZero (k₂.task 0) 0x6000 := by
  have hrun : Halting.passes (onTask 0 (fun _ => growproc (-0x2000)) afterWrite) (fun r k' =>
      decide (r = 0) && decide (userLoad (afterWrite.task 0) 0x6000 = some 5) &&
        decide ((afterWrite.procs 0).state = .runnable) &&
        decide (pgRoundUp (k'.procs 0).sz ≤ 0x6000) &&
        (afterWrite.procs 0).swapped.isEmpty &&
        decide (¬ pgRoundUp (afterWrite.procs 0).sz ≤ 0x6000) &&
        decide (∀ j : Fin 16, j.val < (afterWrite.procs 0).lazyNseg →
          u64 (((afterWrite.procs 0).lazySegs j).vaddr + ((afterWrite.procs 0).lazySegs j).memsz) ≤
            pgRoundDown 0x6000) &&
        decide (((k'.procs 0).pagetable.bind fun root =>
          (runActs (undisturbedCheck 0 root 0x6000) regrowFirst k').bind fun k₁ =>
            (runActs (undisturbedCheck 0 root 0x6000) [(0, .sbrk 0x1000)] k₁).map fun k₂ =>
              decide ((k₁.procs 0).pagetable = some root) && decide ((k₁.procs 0).sz ≤ 0x6000) &&
                decide ((k₂.procs 0).pagetable = some root) && decide ((k₂.procs 0).sz = 0x7000)) =
          some true)) = true := by decide +kernel
  obtain ⟨r, k', hgrow, hrun⟩ := Halting.passes_eq_true.mp hrun
  simp only [Bool.and_eq_true, decide_eq_true_eq, List.isEmpty_iff] at hrun
  obtain ⟨⟨⟨⟨⟨⟨⟨rfl, hload⟩, hr⟩, hpage⟩, hswapped⟩, habove⟩, hsegs⟩, hlater⟩ := hrun
  obtain ⟨root, -, hlater⟩ := Option.bind_eq_some_iff.mp hlater
  obtain ⟨k₁, hfirst, hlater⟩ := Option.bind_eq_some_iff.mp hlater
  obtain ⟨k₂, hsecond, hend⟩ := Option.map_eq_some_iff.mp hlater
  simp only [Bool.and_eq_true, decide_eq_true_eq] at hend
  obtain ⟨⟨⟨hroot₁, hsz₁⟩, hroot₂⟩, hsz₂⟩ := hend
  obtain ⟨es, hrun₁⟩ := meets_of_runActs undisturbed_of_check _ (Run.Meets.nil k') hfirst
  obtain ⟨es', hrun₂⟩ := meets_of_runActs undisturbed_of_check _ hrun₁ hsecond
  have hback : GivenBack (afterWrite.task 0) 0x6000 := by
    refine ⟨fun e he => ?_, fun a ha => lazySegFind_of_le hsegs ha, fun hc => absurd hc habove⟩
    rw [show (afterWrite.task 0).p.swapped = [] from hswapped] at he
    cases he
  exact ⟨k', root, es, k₁, es', k₂, hload, hgrow, hrun₁,
    (shrink_gone afterWrite_reachable hr (by decide) hgrow (by decide) hpage hback hrun₁ hroot₁).1
    hsz₁, hrun₂, hsz₂,
    (shrink_gone afterWrite_reachable hr (by decide) hgrow (by decide) hpage hback hrun₂ hroot₂).2⟩

/-- A machine with ten pages, where the process has written the first page of its heap, which was
then swapped out for lack of memory. -/
@[irreducible] def swappedHeap : Kernel := stateAfter (machine 10 [smallProgram])
  [(0, .exec [47, 97] [[97]]), (0, .sbrk 0x2000), (0, .fault 0x5000 true false),
   (0, .store 0x5000 9),
   (0, .fault 0x1000 true false), (0, .fault 0x2000 true false), (0, .fault 0 false true),
   (0, .fault 0x6000 true false)]

set_option maxRecDepth 100000 in
theorem swappedHeap_reachable : Reachable swappedHeap := by
  unfold swappedHeap
  exact reachable_of_stateAfter (machine_boot (by decide) _) (by decide +kernel)

set_option maxRecDepth 100000 in
/-- **A page that was swapped out is there after the shrink**: a fault above the new size is
handled, and the process reads the byte it had written. -/
theorem shrink_keeps_swapped : ∃ k' t', Reachable swappedHeap ∧
    (swappedHeap.procs 0).state = .runnable ∧
    onTask 0 (fun _ => growproc (-0x2000)) swappedHeap = .ok (0, k') ∧
    pgRoundUp (k'.procs 0).sz ≤ 0x5000 ∧
    demandPageLoadNew k'.fs 0x5000 false false (k'.task 0) = .ok (0, t') ∧
    userLoad t' 0x5000 = some 9 := by
  have hrun : (match onTask 0 (fun _ => growproc (-0x2000)) swappedHeap with
      | .ok (r, k') => decide (r = 0) && decide ((swappedHeap.procs 0).state = .runnable) &&
          decide (pgRoundUp (k'.procs 0).sz ≤ 0x5000) &&
          (match demandPageLoadNew k'.fs 0x5000 false false (k'.task 0) with
            | .ok (r, t') => decide (r = 0) && decide (userLoad t' 0x5000 = some 9)
            | .error _ => false)
      | .error _ => false) = true := by decide +kernel
  split at hrun
  · next r k' hgrow =>
    simp only [Bool.and_eq_true, decide_eq_true_eq] at hrun
    obtain ⟨⟨⟨rfl, hr⟩, hpage⟩, hload⟩ := hrun
    split at hload
    · next r t' hfault =>
      simp only [Bool.and_eq_true, decide_eq_true_eq] at hload
      obtain ⟨rfl, hbyte⟩ := hload
      exact ⟨k', t', swappedHeap_reachable, hr, hgrow, hpage, hfault, hbyte⟩
    · cases hload
  · cases hrun

end Xv6
