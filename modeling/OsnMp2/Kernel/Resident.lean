import OsnMp2.Kernel.Memstat
import OsnMp2.Kernel.Tables

/-!
# The resident list and the report of `memstat`

Faults, evictions, `sbrk` and `exec` keep the resident list in step with the page table: every
page in memory is listed. `fork` does not: `uvmcopy` maps a copy of each page of the parent, and
the list of the child starts empty. The child's report then calls these pages unmapped, and
replacement never finds them.

## Main definitions

* `Listed`: every page in memory is in the resident list
* `Truthful`: what `memstat` reports is what the page table says
* `NoCopy`: the condition on a step that no `fork` copies a page

## Main results

* `memstat_truthful`: along every run in which no `fork` copies a page, every report is true
* `memstat_child`: a child whose report is false
-/

namespace Xv6

variable {k k' : Kernel} {t t' : Task} {root tf : Frame} {own own' : Set Frame}

/-- Every page in memory is in the resident list. -/
def Listed (t : Task) (root : Frame) : Prop :=
  ∀ a, IsPage a → a ∈ mappedPages t.mem root → a ∈ residentVas t.p

/-- The mapped user pages. -/
def pagesInUse (m : Mem) (root : Frame) : Set Nat :=
  {a | IsPage a ∧ ∃ e, m.lookup root a = some e ∧ e.perm.u = true}

/-- **The report of `memstat` is what the page table says.** -/
structure Truthful (t : Task) (root : Frame) : Prop where
  listed : ∀ va e, va < t.p.sz → t.mem.lookup root va = some e → e.perm.u = true →
    ∃ r ∈ t.p.resident, r.va = pgRoundDown va
  page : ∀ n, n < maxPagesInfo → n * pgSize < t.p.sz → ∃ s, (memstat t.p).pages[n]? = some s ∧
    s.va = n * pgSize ∧
    (s.state = .resident ↔ ∃ e, t.mem.lookup root (n * pgSize) = some e ∧ e.perm.u = true) ∧
    (s.state = .swapped ↔ ∃ e ∈ t.p.swapped, e.va = n * pgSize) ∧
    (s.state = .unmapped ↔ t.mem.lookup root (n * pgSize) = none ∧
      ¬ ∃ e ∈ t.p.swapped, e.va = n * pgSize)
  count : (memstat t.p).numResidentPages = (pagesInUse t.mem root).ncard

/-! ## Faults, `sbrk` and `exec` -/

/-- The pages that an eviction leaves in memory are still listed. -/
theorem Eviction.listed {p₁ : Proc} {P : Nat → Prop} (hev : Eviction t root p₁ P) {a : Nat}
    (ha : a ∈ residentVas t.p) (hP : ¬ P (a / pgSize)) : a ∈ residentVas p₁ := by
  -- the entry that goes is the one of the victim
  have hother : ∀ {victim : ResidentPage}, ¬ a / pgSize = victim.va / pgSize →
      a ∈ (t.p.resident.eraseP fun e => e.va == victim.va).map (·.va) := by
    intro victim hne
    rw [residentVas_eraseP]
    refine (List.mem_erase_of_ne ?_).mpr ha
    rintro rfl
    exact hne rfl
  cases hev with
  | idle slots => exact ha
  | discard oldest entry clean => exact hother hP
  | swapOut oldest entry dirty mapped room free => exact hother hP

/-- **A page fault** lists the page that it maps. -/
theorem Listed.fault {fs : Fs} {va : Nat} {w : Bool} {r : Int} (htask : TaskOk t root tf own)
    (hf : Fault fs t va w root own r t' own') (h : Listed t root) : Listed t' root := by
  intro a ha hmapped
  cases hf with
  | beyond | readOnly | invalid => exact h a ha hmapped
  | present low mapped writable =>
    have hlist := h a ha hmapped
    unfold residentVas at hlist ⊢
    dsimp only
    split
    · rwa [map_va_markDirty]
    · exact hlist
  | stopped low unmapped valid evict full kept proc =>
    obtain ⟨hold, hP⟩ := (kept.mem_mappedPages ha).mp hmapped
    have hlist := evict.listed (h a ha hold) hP
    rcases proc with rfl | ⟨-, slots, rfl⟩
    · exact hlist
    · exact hlist
  | loaded low unmapped valid evict full pageIn =>
    rename_i P p₁ slots m'
    have hr : residentVas (addResidentProc (swapInProc p₁ (pgRoundDown va) slots)
      (pgRoundDown va) w) =
        residentVas p₁ ++ [pgRoundDown va] := by
      simp only [residentVas, addResidentProc, swapInProc, List.map_append, List.map_cons,
        List.map_nil]
    dsimp only
    rw [hr]
    have hpage := htask.space.isPage low unmapped
    rcases (pageIn.mem_mappedPages hpage unmapped ha).mp hmapped with rfl | ⟨hold, hP⟩
    · exact List.mem_append_right _ (List.mem_singleton_self _)
    · exact List.mem_append_left _ (evict.listed (h a ha hold) hP)

/-- **A shrink** drops from the list only pages that it unmaps. -/
theorem Listed.sbrk {n r : Int} (htask : TaskOk t root tf own) (hg : Grow n t root own r t' own')
    (h : Listed t root) : Listed t' root := by
  cases hg with
  | refused | same | wrapped | grown => exact h
  | shrunk neg heap small unmapped =>
    rintro a ha ⟨pte, hpte⟩
    have hsize := htask.size
    have hlow : a < maxVa := ha.1.trans (by decide)
    by_cases hP : pgRoundUp (shrunkSize t.p.sz n) / pgSize ≤ a / pgSize ∧
        a / pgSize < pgRoundUp t.p.sz / pgSize
    · rw [unmapped.gone a hlow hP] at hpte
      cases hpte
    rw [unmapped.lookup a hlow hP] at hpte
    obtain ⟨e, he, rfl⟩ := mem_residentVas.mp (h a ha ⟨pte, hpte⟩)
    refine mem_residentVas.mpr ⟨e, List.mem_filter.mpr ⟨he, ?_⟩, rfl⟩
    obtain ⟨-, halign⟩ := ha
    simp only [Bool.not_eq_true', Bool.and_eq_false_iff, decide_eq_false_iff_not]
    unfold pgRoundUp u64 at hP
    simp only [trapframeVa, trampolineVa, maxVa, pgSize] at *
    omega

theorem Listed.congr (h : Listed t root) (hres : t'.p.resident = t.p.resident)
    (hlook : ∀ va, t'.mem.lookup root va = t.mem.lookup root va) : Listed t' root := by
  rintro a ha ⟨pte, hpte⟩
  rw [residentVas, hres]
  rw [hlook] at hpte
  exact h a ha ⟨pte, hpte⟩

/-- **`exec`** maps the stack page only, and lists it. -/
theorem Listed.exec {fs : Fs} {ip : Nat} {argv : List (List UInt8)} {r : Int} {root' : Frame}
    (htask : TaskOk t root tf own) (hout : ExecOut fs ip argv t root tf own r t')
    (hp : t'.p.pagetable = some root') (h : Listed t root) : Listed t' root' := by
  have hsame : t'.p.pagetable = t.p.pagetable → root' = root := fun hpt =>
    Option.some.inj (hp.symm.trans (hpt.trans htask.pagetable))
  cases hout with
  | noElf bad =>
    obtain rfl := hsame rfl
    exact h
  | noTable elf table acts =>
    obtain rfl := hsame rfl
    exact h.congr rfl (htask.lookup_acts acts)
  | bad elf scan table acts why =>
    obtain rfl := hsame rfl
    exact h.congr rfl (htask.lookup_acts acts)
  | noRoom elf scan base room mapped acts =>
    obtain rfl := hsame rfl
    exact h.congr rfl (htask.lookup_acts acts)
  | done elf scan base image space disjoint acts stack empty fresh mapped =>
    rename_i hdr l m' root₁ own' sp argc b
    obtain rfl : root₁ = root' := Option.some.inj hp
    rintro a ha ⟨pte, hpte⟩
    refine mem_residentVas.mpr ⟨_, List.mem_singleton_self _, ?_⟩
    show stackBase l = a
    by_contra hne
    have hpage : a / pgSize ≠ stackBase l / pgSize := fun hc =>
      hne (eq_of_page (execStackbase_spec (segEnd l 0)).1 ha.2 hc.symm)
    rw [empty a ha.1 hpage] at hpte
    cases hpte

/-! ## `fork` -/

/-- A `fork` that fills a slot has succeeded. -/
theorem SmallStep.fork_succeeds {i j : Nat} {own : Nat → Set Frame} (hinv : SysInv k own)
    (hs : SmallStep k (.op i .fork) k') (hun : (k.procs j).state = .unused)
    (hp : (k'.procs j).pagetable.isSome = true) : ∃ r, kfork i k = .ok (r, k') ∧ r ≠ -1 := by
  cases hs with
  | op hr does =>
    cases does with
    | fork run =>
      refine ⟨_, run, ?_⟩
      cases kfork_spec hinv hr run with
      | failed step same =>
        -- a failed call leaves the slot without a page table
        rw [step.inv.pagetable_none (hinv.idle hun).1] at hp
        cases hp
      | child => exact fun hc => absurd hc (by omega)

/-- **No `fork` copies a page**: a `fork` that succeeds is made by a process that has no user page
mapped below its size. -/
def NoCopy (k : Kernel) : Move → Prop
  | .op i .fork => ∀ r k', kfork i k = .ok (r, k') → r ≠ -1 →
      ∀ root, (k.procs i).pagetable = some root → ∀ va e, va < (k.procs i).sz →
        k.mem.lookup root va = some e → e.perm.u = false
  | _ => True

theorem preserved_listed {m : Move} (hreach : SmallReachable k) (hC : NoCopy k m)
    (hs : SmallStep k m k') : Preserved Listed k m k' where
  stable j := {
    congr := fun root t t' hv h => h.congr (congrArg Proc.resident hv.paging :) hv.lookup
    fault := fun _ _ _ _ _ _ _ _ _ _ htask _ _ hf h => h.fault htask hf
    write := fun _ _ _ _ _ _ _ _ _ _ _ _ _ h => h.congr rfl fun va => lookup_setBytes _ _ _ _ _ va
    sbrk := fun _ _ _ _ _ _ _ _ htask _ hg h => h.sbrk htask hg
    child := fun i root root' tf tf' o hm hun htask hproc hcopy hrest _ => by
      subst hm
      obtain ⟨⟨own, hinv⟩, -⟩ := tablesOk_reachable hreach
      have hp : (k'.procs j).pagetable.isSome = true := by
        rw [hproc]
        rfl
      obtain ⟨r, hrun, hr⟩ := hs.fork_succeeds hinv hun hp
      rintro a ha ⟨pte, hpte⟩
      exfalso
      by_cases hsize : a / pgSize < ((k.procs i).sz + (pgSize - 1)) / pgSize
      · -- the page of the parent is mapped as well
        have hlow : a < maxVa := ha.1.trans (by decide)
        have hc := hcopy a hlow hsize
        rw [show k'.mem.lookup root' a = some pte from hpte] at hc
        obtain ⟨e, he, -⟩ := Option.map_eq_some_iff.mp hc.symm
        have hlt : a < (k.procs i).sz := by
          obtain ⟨-, halign⟩ := ha
          simp only [pgSize] at *
          omega
        have huser := htask.space.user ha.1 he
        rw [hC r k' hrun hr root htask.pagetable a e hlt he] at huser
        cases huser
      · rw [show (k'.task j).mem.lookup root' a = none from hrest a ha.1 hsize] at hpte
        cases hpte }
  exec _ _ _ _ _ _ _ _ _ _ _ htask _ hout hp h := h.exec htask hout hp

/-! ## The report -/

/-- The list has one entry for each page in memory. -/
theorem Listed.ncard (htask : TaskOk t root tf own) (htables : TablesOk t root)
    (h : Listed t root) : (pagesInUse t.mem root).ncard = t.p.resident.length := by
  have hset : pagesInUse t.mem root = (residentVas t.p).toFinset := by
    ext a
    rw [List.coe_toFinset]
    constructor
    · rintro ⟨ha, e, he, -⟩
      exact h a ha ⟨e, he⟩
    · intro ha
      obtain ⟨e, he, rfl⟩ := mem_residentVas.mp ha
      have hpage := htask.resident e he
      obtain ⟨pte, hpte⟩ := htables.resident_mapped e he
      exact ⟨hpage, pte, hpte, htask.space.user hpage.1 hpte⟩
  have hnodup : (residentVas t.p).Nodup := htables.resident_nodup
  rw [hset, Set.ncard_coe_finset, List.toFinset_card_of_nodup hnodup]
  exact List.length_map ..

/-- **When every page in memory is listed, the report is true.** -/
theorem Listed.truthful (htask : TaskOk t root tf own) (htables : TablesOk t root)
    (h : Listed t root) : Truthful t root where
  listed va e hva he _ := by
    have hsize := htask.size
    have hpage : IsPage (pgRoundDown va) := by
      unfold IsPage pgRoundDown
      simp only [trapframeVa, trampolineVa, maxVa, pgSize] at *
      omega
    exact mem_residentVas.mp (h _ hpage ⟨e, (lookup_pgRoundDown _ _ va).trans he⟩)
  page n hn hsz := by
    have hsize := htask.size
    have hpage : IsPage (n * pgSize) := by
      unfold IsPage
      simp only [trapframeVa, trampolineVa, maxVa, pgSize] at *
      omega
    have hentry : (memstat t.p).pages[n]? = some (pageStat t.p (n * pgSize)) := by
      have hfill := getElem?_fillPages t.p maxPagesInfo 0 n
      rw [Nat.zero_add, if_pos ⟨hn, hsz⟩] at hfill
      exact hfill
    -- what is listed is what is mapped, and a page that is swapped out is not
    have hres : (∃ e ∈ t.p.resident, e.va = n * pgSize) ↔
        ∃ e, t.mem.lookup root (n * pgSize) = some e ∧ e.perm.u = true := by
      constructor
      · rintro ⟨e, he, hva⟩
        obtain ⟨pte, hpte⟩ := htables.resident_mapped e he
        rw [hva] at hpte
        exact ⟨pte, hpte, htask.space.user hpage.1 hpte⟩
      · rintro ⟨e, he, -⟩
        exact mem_residentVas.mp (h _ hpage ⟨e, he⟩)
    have hswap : (∃ e ∈ t.p.swapped, e.va = n * pgSize) →
      t.mem.lookup root (n * pgSize) = none := by
      rintro ⟨e, he, hva⟩
      rw [← hva]
      exact htables.swapped_unmapped e he
    have hnone : t.mem.lookup root (n * pgSize) = none ↔
        ¬ ∃ e, t.mem.lookup root (n * pgSize) = some e ∧ e.perm.u = true := by
      constructor
      · rintro hn ⟨e, he, -⟩
        rw [hn] at he
        cases he
      · intro hc
        by_contra hne
        obtain ⟨e, he⟩ := Option.ne_none_iff_exists'.mp hne
        exact hc ⟨e, he, htask.space.user hpage.1 he⟩
    obtain ⟨hr, hs⟩ := pageStat_state t.p (n * pgSize)
    rw [hres] at hr hs
    refine ⟨_, hentry, ?_, hr, ?_, ?_⟩
    · have hva : (pageStat t.p (n * pgSize)).va = u32 (n * pgSize) := by
        unfold pageStat
        split
        · rfl
        · split <;> rfl
      rw [hva, u32]
      simp only [maxPagesInfo, pgSize] at *
      omega
    · rw [hs]
      exact ⟨fun hc => hc.2, fun hc => ⟨hnone.mp (hswap hc), hc⟩⟩
    · cases hstate : (pageStat t.p (n * pgSize)).state with
      | unmapped =>
        rw [hstate] at hr hs
        rw [hnone]
        simp only [reduceCtorEq, false_iff, not_and] at hr hs
        exact ⟨fun _ => ⟨hr, hs hr⟩, fun _ => rfl⟩
      | resident =>
        have hmap := hr.mp hstate
        exact ⟨by rintro ⟨⟩, fun hc => absurd hmap (hnone.mp hc.1)⟩
      | swapped =>
        have hsw := (hs.mp hstate).2
        exact ⟨by rintro ⟨⟩, fun hc => absurd hsw hc.2⟩
  count := congrArg Nat.cast (h.ncard htask htables).symm

/-- **Along every run in which no `fork` copies a page, every page in memory is listed and every
report of `memstat` is true.** -/
theorem memstat_truthful {k₀ k₁ : Kernel} {ms : List Move} (hboot : Boot k₀)
    (huser : userinit k₀ = .ok ((), k₁)) (hrun : Run.Meets SmallStep NoCopy k₁ ms k) :
    ∀ i root, (k.procs i).pagetable = some root → Truthful (k.task i) root := by
  intro i root hp
  have hreach : SmallReachable k := ⟨k₀, k₁, ms, hboot, huser, hrun.run⟩
  obtain ⟨⟨own, hinv⟩, hlisted⟩ := everyTask_of_meets (P := Listed) hboot huser hrun
    (fun t root tf pid _ hempty a ha hmapped => by
      obtain ⟨pte, hpte⟩ := hmapped
      rw [hempty a ha.1] at hpte
      cases hpte)
    (fun k m k' hreach hC hs _ => preserved_listed hreach hC hs)
  obtain ⟨tf, o, -, -, htask⟩ := hinv.live hp
  exact (hlisted i root hp).truthful htask ((tablesOk_reachable hreach).2 i root hp)

/-- The check that a process that forks has no memory. -/
def noCopyCheck (k : Kernel) : Move → Bool
  | .op i .fork => decide ((k.procs i).sz = 0)
  | _ => true

theorem noCopy_of_check (k : Kernel) (m : Move) (h : noCopyCheck k m = true) : NoCopy k m := by
  unfold noCopyCheck at h
  split at h
  · intro r k' _ _ root _ va e hva _
    rw [of_decide_eq_true h] at hva
    exact absurd hva (Nat.not_lt_zero va)
  · next hne =>
    cases m with
    | others => trivial
    | op i o =>
      cases o with
      | fork => exact absurd rfl (hne i)
      | _ => trivial

set_option maxRecDepth 100000 in
/-- A run in which the first process forks before it has any memory, and the child executes the
program and writes its data: the report of the child shows the data page and the stack page. -/
theorem memstat_truthful_early : ∃ k₁ ms k root, Run.Meets SmallStep NoCopy k₁ ms k ∧
    (k.procs 1).pagetable = some root ∧
    (memstat (k.procs 1)).pages.map (·.state) = [.unmapped, .resident, .unmapped, .unmapped,
      .resident] ∧
    Truthful (k.task 1) root := by
  have hrun : (okState (userinit (machine 40 [smallProgram]))).any (fun k₁ =>
      (Run.after (nextOp noCopyCheck)
          [.op 0 .fork, .op 1 (.exec [47, 97] [[97]]), .op 1 (.fault 0x1234 true false 0)]
          k₁).any fun k =>
        (k.procs 1).pagetable.any fun _ => decide ((memstat (k.procs 1)).pages.map (·.state) =
          [.unmapped, .resident, .unmapped, .unmapped, .resident])) = true := by decide +kernel
  obtain ⟨k₁, hinit, hrun⟩ := (Option.any_eq_true _ _).mp hrun
  obtain ⟨k, hops, hrun⟩ := (Option.any_eq_true _ _).mp hrun
  obtain ⟨root, hroot, hrun⟩ := (Option.any_eq_true _ _).mp hrun
  obtain ⟨_, huser⟩ := okState_eq_some hinit
  have hmeets := Run.meets_of_after (meets_of_nextOp noCopy_of_check) _ (.nil k₁) hops
  exact ⟨k₁, _, k, root, hmeets, hroot, of_decide_eq_true hrun,
    memstat_truthful (machine_boot (by decide) _) huser hmeets 1 root hroot⟩

set_option maxRecDepth 100000 in
/-- **A report that is false**: the child of a process that has written its data has a copy of the
page, and its resident list is empty. -/
theorem memstat_child : SmallReachable afterFork ∧
    ∃ root e, (afterFork.procs 1).pagetable = some root ∧
    0x1000 < (afterFork.procs 1).sz ∧ afterFork.mem.lookup root 0x1000 = some e ∧ e.perm.u = true ∧
    (afterFork.procs 1).resident.length = 0 ∧
    ((memstat (afterFork.procs 1)).pages[1]?).map (·.state) = some .unmapped ∧
    ¬ Truthful (afterFork.task 1) root := by
  have hrun : (afterFork.procs 1).pagetable.any (fun root => (afterFork.mem.lookup root 0x1000).any
    fun e =>
      decide (0x1000 < (afterFork.procs 1).sz) && e.perm.u &&
        decide ((afterFork.procs 1).resident.length = 0) &&
        decide (((memstat (afterFork.procs 1)).pages[1]?).map (·.state) = some .unmapped)) =
        true := by
    decide +kernel
  obtain ⟨root, hroot, hrun⟩ := (Option.any_eq_true _ _).mp hrun
  obtain ⟨e, he, hrun⟩ := (Option.any_eq_true _ _).mp hrun
  simp only [Bool.and_eq_true, decide_eq_true_eq] at hrun
  obtain ⟨⟨⟨hsz, hu⟩, hres⟩, hstat⟩ := hrun
  refine ⟨afterFork_reachable.small, root, e, hroot, hsz, he, hu, hres, hstat, fun htrue => ?_⟩
  obtain ⟨r, hr, -⟩ := htrue.listed 0x1000 e hsz he hu
  rw [show (afterFork.task 1).p.resident = [] from List.length_eq_zero_iff.mp hres] at hr
  cases hr

end Xv6
